import MipsOs.Sched.Spaces

/-!
# The address spaces of the processes

Every live process has a page directory of its own, and the memory serves
these directories (`Owns`).

`reachable_memory_owned` is the result for the pointer kernel: over any
sequence of events that hands out physical addresses below 2^36 only, frames,
page tables and page directories have one owner each.
-/

namespace MipsOs.Sched

open MipsOs.Lib MipsOs.Mm

/-- The memory serves the live processes. -/
structure Spaces (d : Option Task) (k : Kernel ListQueues) : Prop where
  owns : Owns k.mm (k.toCore.livePgds d)
  inj : ∀ i j, k.toCore.Lives d i → k.toCore.Lives d j →
    (k.pcb i).pageTable = (k.pcb j).pageTable → i = j
  zero : (k.pcb 0).pageTable = 0

section Events

variable {k : Kernel ListQueues} {d : Option Task}

theorem spaces_iff : Spaces d k ↔ SpacesOf Owns d k :=
  ⟨fun h => ⟨h.owns, h.inj, h.zero⟩, fun h => ⟨h.owns, h.inj, h.zero⟩⟩

theorem ownRules_owns : OwnRules Owns where
  setCurrentPgd _ _ _ h := h.setCurrentPgd
  newPgd _ _ h hcard := h.newPgd hcard
  freePgd _ _ _ h hpgd := h.freePgd hpgd

/-- One event keeps the address spaces, as long as it hands out addresses below
2^36. -/
theorem Spaces.step_of (h : Spaces none k) (hcur : CurrentSpace k) (hinv : SchedInv k)
    {e : Event} (hkill : ∀ pid, e.call = .kill pid → pid ≠ 0 ∧
      (k.toCore.findPid pid = some k.currentRunning → k.cur.status ≠ .exited)) :
    Safe (kernelStep k e) fun k' => k'.mm.InRange → Spaces none k' ∧ CurrentSpace k' := by
  have hstep := (spaces_iff.mp h).step_of ownRules_owns hcur hinv hkill (R := Memory.InRange)
    fun _ _ hpgd hr => h.owns.doTlbRefill hpgd hr
  refine hstep.mono fun k' hk' hr => ?_
  obtain ⟨hspaces, hcur'⟩ := hk' hr
  exact ⟨spaces_iff.mpr hspaces, hcur'⟩

theorem Spaces.step (h : Spaces none k) (hcur : CurrentSpace k) (hinv : SchedInv k) {e : Event}
    (hallowed : Allowed k.toCore e) : Safe (kernelStep k e) fun k' =>
      k'.mm.InRange → Spaces none k' ∧ CurrentSpace k' := by
  refine h.step_of hcur hinv fun pid hcall => ⟨?_, fun _ hs => ?_⟩
  · rintro rfl
    exact hallowed.2 hcall
  · have hswitch := hallowed.1 hs
    rw [hcall] at hswitch
    cases hswitch

end Events

/-! ## Runs of the pointer kernel -/

/-- Entry `a` of the page directory of a live process is a page table of its
own. -/
def Core.UsesTable (c : Core) (i : Task) (a t : Nat) : Prop :=
  c.Lives none i ∧ a < numEntry ∧ c.mm.tables (c.pcb i).pageTable a = t ∧
    t ≠ c.mm.globalEmptyPt

/-- Entry `b` of the page table in entry `a` is valid and maps a frame. -/
def Core.MapsFrame (c : Core) (i : Task) (a b f : Nat) : Prop :=
  ∃ t, c.UsesTable i a t ∧ b < numEntry ∧ pteValid (c.mm.tables t b) ∧
    frameOf (c.mm.tables t b) = f

/-- Every frame, page table and page directory in use has one owner and is not
free, and the shared empty page table is all zero. -/
structure MemoryOwned (c : Core) : Prop where
  frame_once : ∀ i a b i' a' b' f, c.MapsFrame i a b f → c.MapsFrame i' a' b' f →
    i = i' ∧ a = a' ∧ b = b'
  table_once : ∀ i a i' a' t, c.UsesTable i a t → c.UsesTable i' a' t → i = i' ∧ a = a'
  pgd_once : ∀ i j, c.Lives none i → c.Lives none j →
    (c.pcb i).pageTable = (c.pcb j).pageTable → i = j
  frame_not_free : ∀ i a b f, c.MapsFrame i a b f → f ∉ c.mm.pageCtrlUser.freePages
  table_not_free : ∀ i a t, c.UsesTable i a t → t ∉ c.mm.pageCtrlPt.freePages
  pgd_not_free : ∀ i, c.Lives none i → (c.pcb i).pageTable ∉ c.mm.pageCtrlPgd.freePages
  empty_not_free : c.mm.globalEmptyPt ∉ c.mm.pageCtrlPt.freePages
  empty_zero : ∀ j, c.mm.tables c.mm.globalEmptyPt j = 0

theorem Spaces.memoryOwned {k : Kernel ListQueues} (h : Spaces none k) :
    MemoryOwned k.toCore := by
  obtain ⟨live, nG, nT, nU, ⟨hpools, hrefs, hzero⟩, hpgds⟩ := h.owns
  have hlive : ∀ i, k.toCore.Lives none i → (k.pcb i).pageTable ∈ live.pgds := fun i hi =>
    hpgds ▸ mem_livePgds.mpr ⟨i, hi, rfl⟩
  have hdir : ∀ i a t, k.toCore.UsesTable i a t → k.mm.Dir live.pgds (k.pcb i).pageTable a ∧
      k.mm.tables (k.pcb i).pageTable a = t := by
    rintro i a t ⟨hi, ha, rfl, hne⟩
    exact ⟨⟨hlive i hi, ha, hne⟩, rfl⟩
  have htable : ∀ i a i' a' t, k.toCore.UsesTable i a t → k.toCore.UsesTable i' a' t →
      i = i' ∧ a = a' := by
    intro i a i' a' t ht ht'
    obtain ⟨hd, heq⟩ := hdir i a t ht
    obtain ⟨hd', heq'⟩ := hdir i' a' t ht'
    obtain ⟨hp, ha⟩ := hrefs.dir_inj _ _ _ _ hd hd' (heq.trans heq'.symm)
    exact ⟨h.inj i i' ht.1 ht'.1 hp, ha⟩
  have hpte : ∀ i a b f, k.toCore.MapsFrame i a b f → ∃ t, k.toCore.UsesTable i a t ∧
      k.mm.Pte live.pgds t b ∧ frameOf (k.mm.tables t b) = f := by
    rintro i a b f ⟨t, ht, hb, hvalid, hf⟩
    obtain ⟨hd, heq⟩ := hdir i a t ht
    exact ⟨t, ht, ⟨⟨_, _, hd, heq⟩, hb, hvalid⟩, hf⟩
  refine ⟨?_, htable, h.inj, ?_, ?_, ?_, ?_, hzero⟩
  · intro i a b i' a' b' f hm hm'
    obtain ⟨t, ht, hp, hf⟩ := hpte i a b f hm
    obtain ⟨t', ht', hp', hf'⟩ := hpte i' a' b' f hm'
    obtain ⟨rfl, hb⟩ := hrefs.pte_inj t b t' b' hp hp' (hf.trans hf'.symm)
    obtain ⟨hi, ha⟩ := htable i a i' a' t ht ht'
    exact ⟨hi, ha, hb⟩
  · intro i a b f hm hfree
    obtain ⟨t, _, hp, rfl⟩ := hpte i a b f hm
    exact hpools.user.free_not_live _ hfree (hrefs.pte_mem t b hp)
  · intro i a t ht hfree
    obtain ⟨hd, rfl⟩ := hdir i a t ht
    exact hpools.pt.free_not_live _ hfree (hrefs.dir_mem _ _ hd)
  · intro i hi hfree
    exact hpools.pgd.free_not_live _ hfree (hlive i hi)
  · intro hfree
    exact hpools.pt.free_not_live _ hfree hpools.empty_mem

theorem bootLists_spaces (barrier : BarrierId → Barrier) (tables : Nat → Nat → Nat) :
    Spaces none (bootLists barrier tables) ∧ CurrentSpace (bootLists barrier tables) := by
  have hnone : ∀ i, ((bootLists barrier tables).pcb i).status = .none := by
    intro i
    simp only [bootLists, bootCore]
    split <;> rfl
  have hpgds : (bootLists barrier tables).toCore.livePgds none = ∅ := by
    ext p
    rw [mem_livePgds]
    refine iff_of_false ?_ (Finset.notMem_empty p)
    rintro ⟨i, hi, _⟩
    exact hi.2.1 (hnone i)
  refine ⟨⟨?_, fun i _ hi => absurd (hnone i) hi.2.1, rfl⟩, rfl⟩
  rw [hpgds]
  exact owns_init tables

/-- One event that hands out physical addresses below 2^36 only. -/
def memoryRun (k : Kernel PtrQueues) (e : Event) : Option (Kernel PtrQueues) :=
  (kernelRun k e).filter fun k' => k'.mm.InRange

/-- In every state that the events reach from boot, as long as the physical
addresses handed out are below 2^36, the memory is owned exclusively. -/
theorem reachable_memory_owned (barrier : BarrierId → Barrier) (tables : Nat → Nat → Nat)
    {k : Kernel PtrQueues}
    (h : Reaches memoryRun (fun k e => Allowed k.toCore e) (bootKernel barrier tables) k) :
    MemoryOwned k.toCore := by
  obtain ⟨a, hfollows, _, hspaces, _⟩ := h.invariant
    (fun k => ∃ a, Follows a k ∧ SchedInv a ∧ Spaces none a ∧ CurrentSpace a)
    ⟨bootLists barrier tables, bootLists_follows barrier tables,
      bootLists_inv barrier tables, bootLists_spaces barrier tables⟩ (by
    rintro k e k' ⟨a, hfollows, hinv, hspaces, hcur⟩ hallowed hstep
    obtain ⟨hrun, hrange⟩ := Option.filter_eq_some_iff.mp hstep
    rw [hfollows.core] at hallowed
    obtain ⟨a', _, hfollows', hinv', hspaces'⟩ := (kernelStep_sim hfollows e).of_ok
      ((hinv.step hallowed).and (hspaces.step hcur hinv hallowed)) (kernelRun_eq_some.mp hrun)
    refine ⟨a', hfollows', hinv', hspaces' ?_⟩
    rw [← hfollows'.core]
    exact of_decide_eq_true hrange)
  rw [hfollows.core]
  exact hspaces.memoryOwned

/-- Two processes fault at the same address and get frames of their own. -/
theorem blankKernel_faults_owned :
    ∃ k, runIf memoryRun (fun k e => Allowed k.toCore e) blankKernel
        [⟨0, .spawn 0⟩, ⟨0, .spawn 0⟩, ⟨0, .timer 5⟩, ⟨0, .pageFault 0x10000⟩, ⟨0, .yield⟩,
          ⟨0, .pageFault 0x10000⟩] = some k ∧
      frameOf (k.mm.tables (k.mm.tables (k.pcb 1).pageTable 0) 16) = 0x20000000 ∧
      frameOf (k.mm.tables (k.mm.tables (k.pcb 2).pageTable 0) 16) = 0x20002000 ∧
      MemoryOwned k.toCore := by
  have hrun : (runIf memoryRun (fun k e => Allowed k.toCore e) blankKernel
      [⟨0, .spawn 0⟩, ⟨0, .spawn 0⟩, ⟨0, .timer 5⟩, ⟨0, .pageFault 0x10000⟩, ⟨0, .yield⟩,
        ⟨0, .pageFault 0x10000⟩]).map (fun k =>
      (frameOf (k.mm.tables (k.mm.tables (k.pcb 1).pageTable 0) 16),
        frameOf (k.mm.tables (k.mm.tables (k.pcb 2).pageTable 0) 16))) =
      some (0x20000000, 0x20002000) := by
    decide +kernel
  obtain ⟨k, hk, hpair⟩ := Option.map_eq_some_iff.mp hrun
  obtain ⟨hfirst, hsecond⟩ := Prod.mk.inj hpair
  exact ⟨k, hk, hfirst, hsecond, reachable_memory_owned _ _ (reaches_of_runIf hk)⟩

end MipsOs.Sched
