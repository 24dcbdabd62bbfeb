import Mathlib

/-!
# Rooted trees

A relation `E d i c` says that edge `i` of the vertex `d` leads to `c`.  The
vertices and their edges are a tree below a root when every vertex is reached
from the root, no edge leads to the root, and no two edges lead to one vertex.

A tree grows by one leaf at a time (`addLeaf`), and it loses one leaf at a time
(`removeLeaf`); the vertices that are closed under parents are a tree again
(`restrict`).
-/

namespace MipsOs.Lib

variable {α ι : Type*}

/-- The vertices `V` are a tree below `root`. -/
structure RootedTree (V : α → Prop) (E : α → ι → α → Prop) (root : α) : Prop where
  root_mem : V root
  mem : ∀ d i c, E d i c → V d ∧ V c
  root_free : ∀ d i, ¬ E d i root
  unique : ∀ d i e j c, E d i c → E e j c → d = e ∧ i = j
  reach : ∀ d, V d → Relation.ReflTransGen (fun d c => ∃ i, E d i c) root d

namespace RootedTree

variable {V W : α → Prop} {E F : α → ι → α → Prop} {root : α}

/-- One more vertex, under an edge of its own. -/
theorem addLeaf (h : RootedTree V E root) {p c : α} {k : ι} (hp : V p) (hc : ¬ V c)
    (hW : ∀ d, W d ↔ V d ∨ d = c)
    (hF : ∀ d i e, F d i e ↔ E d i e ∨ d = p ∧ i = k ∧ e = c) : RootedTree W F root where
  root_mem := (hW root).mpr (.inl h.root_mem)
  mem d i e hedge := by
    rw [hW, hW]
    rcases (hF d i e).mp hedge with hold | ⟨rfl, _, rfl⟩
    · obtain ⟨hd, he⟩ := h.mem d i e hold
      exact ⟨.inl hd, .inl he⟩
    · exact ⟨.inl hp, .inr rfl⟩
  root_free d i hedge := by
    rcases (hF d i root).mp hedge with hold | ⟨_, _, heq⟩
    · exact h.root_free d i hold
    · exact hc (heq ▸ h.root_mem)
  unique d i e j f hdf hef := by
    rcases (hF d i f).mp hdf with hold | ⟨rfl, rfl, rfl⟩
    · rcases (hF e j f).mp hef with hold' | ⟨_, _, rfl⟩
      · exact h.unique d i e j f hold hold'
      · exact absurd (h.mem d i f hold).2 hc
    · rcases (hF e j f).mp hef with hold' | ⟨rfl, rfl, _⟩
      · exact absurd (h.mem e j f hold').2 hc
      · exact ⟨rfl, rfl⟩
  reach d hd := by
    have hedge : ∀ a b, (∃ i, E a i b) → ∃ i, F a i b := by
      intro a b hab
      obtain ⟨i, hi⟩ := hab
      exact ⟨i, (hF a i b).mpr (.inl hi)⟩
    have hold : ∀ e, V e → Relation.ReflTransGen (fun d c => ∃ i, F d i c) root e :=
      fun e he => Relation.ReflTransGen.mono hedge root e (h.reach e he)
    rcases (hW d).mp hd with hv | rfl
    · exact hold d hv
    · exact (hold p hp).tail ⟨k, (hF p k d).mpr (.inr ⟨rfl, rfl, rfl⟩)⟩

/-- Vertices that are closed under parents. -/
theorem restrict (h : RootedTree V E root) (hroot : W root) (hsub : ∀ d, W d → V d)
    (hup : ∀ d i c, E d i c → W c → W d) :
    RootedTree W (fun d i c => E d i c ∧ W c) root where
  root_mem := hroot
  mem d i c hedge := ⟨hup d i c hedge.1 hedge.2, hedge.2⟩
  root_free d i hedge := h.root_free d i hedge.1
  unique d i e j c hd he := h.unique d i e j c hd.1 he.1
  reach d hd := by
    have hreach := h.reach d (hsub d hd)
    induction hreach with
    | refl => exact .refl
    | tail _ hlast ih =>
      obtain ⟨i, hedge⟩ := hlast
      exact (ih (hup _ i _ hedge hd)).tail ⟨i, hedge, hd⟩

/-- One vertex less, which has no edges. -/
theorem removeLeaf (h : RootedTree V E root) {c : α} (hc : c ≠ root) (hleaf : ∀ i e, ¬ E c i e)
    (hW : ∀ d, W d ↔ V d ∧ d ≠ c) (hF : ∀ d i e, F d i e ↔ E d i e ∧ e ≠ c) :
    RootedTree W F root := by
  have hrestrict : RootedTree W (fun d i e => E d i e ∧ W e) root := by
    refine h.restrict ((hW root).mpr ⟨h.root_mem, hc.symm⟩) (fun d hd => ((hW d).mp hd).1) ?_
    intro d i e hedge _
    refine (hW d).mpr ⟨(h.mem d i e hedge).1, ?_⟩
    rintro rfl
    exact hleaf i e hedge
  convert hrestrict using 4 with d i e
  rw [hF, hW]
  exact and_congr_right fun hedge => (and_iff_right (h.mem d i e hedge).2).symm

end RootedTree

end MipsOs.Lib
