import Mathlib

/-!
# A translation lookaside buffer

A TLB is a table of entries.  An entry maps a pair of pages, the number of
which is `vpn2`, for one address space `asid`, or for all of them when both
halves carry the global bit.  A lookup with two matching entries is an error
of the machine, so the invariant of a TLB is `Nodup`: no two entries match one
lookup.

`replace` is the way to load a pair: probe, write over the entry that
matches, and if there is none over an entry of the machine's choice.
-/

namespace MipsOs.Lib

-- An entry has two halves, indexed by `Fin 2`.
instance neZeroHalves : NeZero 2 := ⟨by decide⟩

/-- One entry: a page pair, an address space and the words of its halves. -/
structure TlbEntry where
  vpn2 : Nat
  asid : Nat
  lo0 : Nat
  lo1 : Nat
  deriving DecidableEq, Repr

namespace TlbEntry

/-- The word of a half. -/
def lo (e : TlbEntry) (half : Fin 2) : Nat := if half = 0 then e.lo0 else e.lo1

/-- The entry matches every address space. -/
def isGlobal (e : TlbEntry) : Bool := e.lo0 &&& e.lo1 &&& 1 ≠ 0

/-- A lookup of the page pair in the address space finds the entry. -/
def Matches (e : TlbEntry) (vpn2 asid : Nat) : Prop :=
  e.vpn2 = vpn2 ∧ (e.isGlobal = true ∨ e.asid = asid)

instance (e : TlbEntry) (vpn2 asid : Nat) : Decidable (e.Matches vpn2 asid) :=
  inferInstanceAs (Decidable (_ ∧ _))

/-- An entry with an even word is not global. -/
theorem isGlobal_eq_false {e : TlbEntry} (h : e.lo0 % 2 = 0) : e.isGlobal = false := by
  have hand : e.lo0 &&& e.lo1 &&& 1 = 0 := by
    rw [Nat.and_right_comm, Nat.and_one_is_mod, h, Nat.zero_and]
  simp [isGlobal, hand]

end TlbEntry

/-- A TLB with `n` entries. -/
abbrev Tlb (n : Nat) := Fin n → TlbEntry

namespace Tlb

variable {n : Nat} {t : Tlb n} {e : TlbEntry} {vpn2 asid : Nat} {i : Fin n}

/-- No two entries match one lookup. -/
def Nodup (t : Tlb n) : Prop :=
  ∀ i j vpn2 asid, (t i).Matches vpn2 asid → (t j).Matches vpn2 asid → i = j

/-- The entry that matches, if there is one. -/
def probe (t : Tlb n) (vpn2 asid : Nat) : Option (Fin n) :=
  (List.finRange n).find? fun i => (t i).Matches vpn2 asid

/-- Write over an entry. -/
def write (t : Tlb n) (i : Fin n) (e : TlbEntry) : Tlb n := Function.update t i e

/-- Write over the entry that matches `e`, or else over the entry `r`. -/
def replace (t : Tlb n) (e : TlbEntry) (r : Fin n) : Tlb n :=
  t.write ((t.probe e.vpn2 e.asid).getD r) e

theorem probe_eq_none_iff : t.probe vpn2 asid = none ↔ ∀ i, ¬ (t i).Matches vpn2 asid := by
  simp [probe]

theorem probe_matches (h : t.probe vpn2 asid = some i) : (t i).Matches vpn2 asid := by
  have hfound := List.find?_some h
  simpa using hfound

/-- A write over the only entry that may match keeps the entries apart. -/
theorem Nodup.write (h : Nodup t) (hglobal : e.isGlobal = false)
    (hfree : ∀ j, j ≠ i → ¬ (t j).Matches e.vpn2 e.asid) : Nodup (t.write i e) := by
  have hnew : ∀ {vpn2 asid}, e.Matches vpn2 asid → vpn2 = e.vpn2 ∧ asid = e.asid := by
    rintro vpn2 asid ⟨rfl, hasid⟩
    rw [hglobal] at hasid
    exact ⟨rfl, (hasid.resolve_left (by simp)).symm⟩
  intro j l vpn2 asid hj hl
  by_cases hji : j = i
  · by_cases hli : l = i
    · exact hji.trans hli.symm
    · subst hji
      rw [Tlb.write, Function.update_self] at hj
      rw [Tlb.write, Function.update_of_ne hli] at hl
      obtain ⟨rfl, rfl⟩ := hnew hj
      exact absurd hl (hfree l hli)
  · rw [Tlb.write, Function.update_of_ne hji] at hj
    by_cases hli : l = i
    · subst hli
      rw [Tlb.write, Function.update_self] at hl
      obtain ⟨rfl, rfl⟩ := hnew hl
      exact absurd hj (hfree j hji)
    · rw [Tlb.write, Function.update_of_ne hli] at hl
      exact h j l vpn2 asid hj hl

/-- The entry that `replace` writes over is the only one that may match. -/
theorem Nodup.only_match (h : Nodup t) (e : TlbEntry) (r : Fin n) {j : Fin n}
    (hj : j ≠ (t.probe e.vpn2 e.asid).getD r) : ¬ (t j).Matches e.vpn2 e.asid := by
  intro hmatch
  cases hprobe : t.probe e.vpn2 e.asid with
  | none => exact probe_eq_none_iff.mp hprobe j hmatch
  | some i =>
    rw [hprobe] at hj
    exact hj (h j i _ _ hmatch (probe_matches hprobe))

theorem Nodup.replace (h : Nodup t) (hglobal : e.isGlobal = false) (r : Fin n) :
    Nodup (t.replace e r) :=
  h.write hglobal fun _ hj => h.only_match e r hj

/-- After `replace` the new entry is in the TLB. -/
theorem replace_self (t : Tlb n) (e : TlbEntry) (r : Fin n) :
    ∃ i, t.replace e r i = e :=
  ⟨_, Function.update_self ..⟩

end Tlb

end MipsOs.Lib
