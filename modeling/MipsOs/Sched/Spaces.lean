import MipsOs.Mm.Ownership
import MipsOs.Sched.Agreement

/-!
# Page directories of the processes

Every live process has a page directory of its own, and the memory serves
these directories.  What this means is a parameter, a relation between the
memory and the directories that keeps the rules `OwnRules`.  A process that
dies gives its directory back before its PCB is free, so `SpacesOf Own d`
leaves out a process `d` that is about to be freed.

`SpacesOf.step_of` says that the events keep it.
-/

namespace MipsOs.Sched

open MipsOs.Lib MipsOs.Mm

/-- What `do_spawn`, `free_proc` and the scheduler ask of the memory. -/
structure OwnRules (Own : Memory → Finset Nat → Prop) : Prop where
  setCurrentPgd : ∀ m pgds pgd, Own m pgds → Own { m with currentPgd := pgd } pgds
  newPgd : ∀ m pgds, Own m pgds → pgds.card ≤ 30 → (allocPage m.pageCtrlPgd).1 ∉ pgds ∧
    Own m.spawnPgd (insert (allocPage m.pageCtrlPgd).1 pgds)
  freePgd : ∀ m pgds pgd, Own m pgds → pgd ∈ pgds → Own (m.freePgd pgd) (pgds.erase pgd)

/-- The process is live, and is not `d`. -/
def Core.Lives (c : Core) (d : Option Task) (i : Task) : Prop :=
  i ≠ 0 ∧ (c.pcb i).status ≠ .none ∧ d ≠ some i

instance (c : Core) (d : Option Task) (i : Task) : Decidable (c.Lives d i) :=
  inferInstanceAs (Decidable (_ ∧ _ ∧ _))

/-- The page directories of the live processes other than `d`. -/
def Core.livePgds (c : Core) (d : Option Task) : Finset Nat :=
  (Finset.univ.filter fun i => c.Lives d i).image fun i => (c.pcb i).pageTable

/-- The memory serves the live processes, in the sense of `Own`. -/
structure SpacesOf (Own : Memory → Finset Nat → Prop) (d : Option Task)
    (k : Kernel ListQueues) : Prop where
  owns : Own k.mm (k.toCore.livePgds d)
  inj : ∀ i j, k.toCore.Lives d i → k.toCore.Lives d j →
    (k.pcb i).pageTable = (k.pcb j).pageTable → i = j
  zero : (k.pcb 0).pageTable = 0

/-- `current_pgd` is the page directory of the running task. -/
def CurrentSpace (k : Kernel ListQueues) : Prop :=
  k.mm.currentPgd = (k.pcb k.currentRunning).pageTable

section Moves

variable {Own : Memory → Finset Nat → Prop} {k k' : Kernel ListQueues} {d : Option Task} {i : Task}

theorem mem_livePgds {c : Core} {p : Nat} :
    p ∈ c.livePgds d ↔ ∃ i, c.Lives d i ∧ (c.pcb i).pageTable = p := by
  simp [Core.livePgds]

/-- The invariant reads which processes live and their page directories. -/
theorem SpacesOf.congr (h : SpacesOf Own d k) (hmm : Own k.mm (k.toCore.livePgds d) →
      Own k'.mm (k.toCore.livePgds d))
    (hlives : ∀ i, k'.toCore.Lives d i ↔ k.toCore.Lives d i)
    (hpgd : ∀ i, (k'.pcb i).pageTable = (k.pcb i).pageTable) : SpacesOf Own d k' := by
  have hpgds : k'.toCore.livePgds d = k.toCore.livePgds d := by
    ext p
    simp only [mem_livePgds, hlives, hpgd]
  refine ⟨?_, fun i j hi hj => ?_, (hpgd 0).trans h.zero⟩
  · rw [hpgds]
    exact hmm h.owns
  · rw [hpgd, hpgd]
    exact h.inj i j ((hlives i).mp hi) ((hlives j).mp hj)

/-- A change of one PCB that leaves its page directory, and whether it lives. -/
theorem SpacesOf.pcb (h : SpacesOf Own d k) (hmm : k'.mm = k.mm)
    (hself : (k'.pcb i).pageTable = (k.pcb i).pageTable ∧
      (i ≠ 0 → (k.pcb i).status ≠ .none ∧ (k'.pcb i).status ≠ .none))
    (hother : ∀ j, j ≠ i → k'.pcb j = k.pcb j) : SpacesOf Own d k' := by
  refine h.congr (fun ho => by rw [hmm]; exact ho) (fun j => ?_) fun j => ?_
  · rcases eq_or_ne j i with rfl | hj
    · unfold Core.Lives
      exact and_congr_right fun hj0 =>
        and_congr_left fun _ => iff_of_true (hself.2 hj0).2 (hself.2 hj0).1
    · unfold Core.Lives
      rw [hother j hj]
  · rcases eq_or_ne j i with rfl | hj
    · exact hself.1
    · rw [hother j hj]

theorem SpacesOf.setPcb (h : SpacesOf Own d k) {p : Pcb} (hpgd : p.pageTable = (k.pcb i).pageTable)
    (hstatus : p.status = (k.pcb i).status) : SpacesOf Own d (k.setPcb i p) := by
  refine h.congr id (fun j => ?_) fun j => ?_
  · rcases eq_or_ne j i with rfl | hj
    · unfold Core.Lives
      rw [Kernel.setPcb_pcb_self, hstatus]
    · unfold Core.Lives
      rw [Kernel.setPcb_pcb_of_ne hj]
  · rcases eq_or_ne j i with rfl | hj
    · rw [Kernel.setPcb_pcb_self, hpgd]
    · rw [Kernel.setPcb_pcb_of_ne hj]

theorem SpacesOf.enqueued (h : SpacesOf Own d k) {q : QueueId} {s : TaskStatus}
    (hi : k.queues.owner i = none) (hlive : i ≠ 0 → (k.pcb i).status ≠ .none)
    (hs : s ≠ .none) : SpacesOf Own d (k.enqueued q i s hi) := by
  refine h.pcb rfl ⟨?_, fun hi0 => ⟨hlive hi0, ?_⟩⟩ fun j hj => Kernel.enqueued_pcb_of_ne hi hj
  · rw [Kernel.enqueued_pcb_self]
  · rw [Kernel.enqueued_pcb_self]
    exact hs

theorem SpacesOf.woken (h : SpacesOf Own d k) {q : QueueId} (hi : k.queues.owner i = some q)
    (hlive : (k.pcb i).status ≠ .none) : SpacesOf Own d (k.woken q i hi) := by
  refine h.pcb rfl ⟨?_, fun _ => ⟨hlive, ?_⟩⟩ fun j hj => Kernel.woken_pcb_of_ne hi hj
  · rw [Kernel.woken_pcb_self]
  · rw [Kernel.woken_pcb_self]
    simp

theorem CurrentSpace.woken (h : CurrentSpace k) {q : QueueId}
    (hi : k.queues.owner i = some q) : CurrentSpace (k.woken q i hi) := by
  have hpgd : ((k.woken q i hi).pcb k.currentRunning).pageTable =
      (k.pcb k.currentRunning).pageTable := by
    rcases eq_or_ne k.currentRunning i with heq | hne
    · rw [heq, Kernel.woken_pcb_self]
    · rw [Kernel.woken_pcb_of_ne hi hne]
  exact h.trans hpgd.symm

theorem CurrentSpace.setPcb (h : CurrentSpace k) {p : Pcb}
    (hpgd : p.pageTable = (k.pcb i).pageTable) : CurrentSpace (k.setPcb i p) := by
  have hpgd' : ((k.setPcb i p).pcb k.currentRunning).pageTable =
      (k.pcb k.currentRunning).pageTable := by
    rcases eq_or_ne k.currentRunning i with heq | hne
    · rw [heq, Kernel.setPcb_pcb_self, hpgd]
    · rw [Kernel.setPcb_pcb_of_ne hne]
  exact h.trans hpgd'.symm

/-- The address spaces survive waking and the work on locks. -/
theorem SpacesOf.quiet (Own : Memory → Finset Nat → Prop) (d d' : Option Task) :
    Quiet fun k => Consistent d' k ∧ SpacesOf Own d k where
  locks k i g h := ⟨(Consistent.closed d').locks k i g h.1, h.2.setPcb rfl rfl⟩
  lock k l s h :=
    ⟨(Consistent.closed d').lock k l s h.1, h.2.congr id (fun _ => Iff.rfl) fun _ => rfl⟩
  woken _ _ _ hi h := ⟨h.1.woken hi, h.2.woken hi (h.1.status_ne_none hi)⟩

theorem CurrentSpace.quiet : Quiet CurrentSpace where
  locks _ _ _ h := h.setPcb rfl
  lock _ _ _ h := h
  woken _ _ _ hi h := h.woken hi

end Moves

/-! ## Death and scheduling -/

section Events

variable {Own : Memory → Finset Nat → Prop} {k : Kernel ListQueues} {i : Task}

/-- `free_proc` gives back the memory of a live process. -/
theorem SpacesOf.freeMemory (h : SpacesOf Own none k) (hrules : OwnRules Own)
    (hi : k.toCore.Lives none i) :
    SpacesOf Own (some i) { k with toCore := k.toCore.freeMemory i } := by
  have hlives : ∀ j, k.toCore.Lives (some i) j ↔ k.toCore.Lives none j ∧ j ≠ i := by
    intro j
    simp [Core.Lives, eq_comm, and_assoc]
  have hpgds : k.toCore.livePgds (some i) =
      (k.toCore.livePgds none).erase (k.pcb i).pageTable := by
    ext p
    simp only [mem_livePgds, Finset.mem_erase, hlives]
    constructor
    · rintro ⟨j, ⟨hj, hne⟩, rfl⟩
      exact ⟨fun heq => hne (h.inj j i hj hi heq), j, hj, rfl⟩
    · rintro ⟨hne, j, hj, rfl⟩
      exact ⟨j, ⟨hj, fun heq => hne (by rw [heq])⟩, rfl⟩
  refine ⟨?_, fun j l hj hl => ?_, h.zero⟩
  · have howns := hrules.freePgd _ _ _ h.owns (mem_livePgds.mpr ⟨i, hi, rfl⟩)
    rw [← hpgds] at howns
    exact howns
  · exact h.inj j l ((hlives j).mp hj).1 ((hlives l).mp hl).1

/-- The PCB of a process whose memory is given back can be freed. -/
theorem SpacesOf.freePcb (h : SpacesOf Own (some i) k) : SpacesOf Own none (k.freePcb i) := by
  have hlives : ∀ j, (k.freePcb i).toCore.Lives none j ↔ k.toCore.Lives (some i) j := by
    intro j
    rcases eq_or_ne j i with rfl | hj
    · simp [Core.Lives, Kernel.freePcb]
    · simp [Core.Lives, Kernel.freePcb, Kernel.setPcb_pcb_of_ne hj, hj.symm]
  have hpgd : ∀ j, ((k.freePcb i).pcb j).pageTable = (k.pcb j).pageTable := by
    intro j
    rcases eq_or_ne j i with rfl | hj
    · simp [Kernel.freePcb]
    · simp [Kernel.freePcb, Kernel.setPcb_pcb_of_ne hj]
  have hpgds : (k.freePcb i).toCore.livePgds none = k.toCore.livePgds (some i) := by
    ext p
    simp only [mem_livePgds, hlives, hpgd]
  refine ⟨?_, fun j l hj hl => ?_, (hpgd 0).trans h.zero⟩
  · rw [hpgds]
    exact h.owns
  · rw [hpgd, hpgd]
    exact h.inj j l ((hlives j).mp hj) ((hlives l).mp hl)

/-- `free_proc` of a process that is off its queue. -/
theorem SpacesOf.freeProc (h : SpacesOf Own none k) (hrules : OwnRules Own)
    (hcons : Consistent (some i) k)
    (hoff : Off i .exited k) : Safe (k.freeProc i) (SpacesOf Own none) := by
  refine (SpacesOf.quiet Own (some i) (some i)).freeProc (fun hpgd => ?_) fun k' h' => h'.2.freePcb
  refine ⟨(Consistent.closed (some i)).memory k i hcons, h.freeMemory hrules ⟨?_, ?_, by simp⟩⟩
  · rintro rfl
    exact hpgd h.zero
  · rw [hoff.2]
    decide

theorem SpacesOf.retire (h : SpacesOf Own none k) (hrules : OwnRules Own)
    (hcons : Consistent none k) :
    Safe k.retire (SpacesOf Own none) := by
  simp only [Kernel.retire]
  split
  · rename_i hrun
    have hfits := hcons.fits k.currentRunning
    have hs : (k.pcb k.currentRunning).status = .running := hrun.2
    rw [hs] at hfits
    refine Kernel.enqueue_rule hfits (h.enqueued hfits (fun _ => ?_) (by decide))
    rw [hs]
    decide
  · split
    · rename_i hex
      have hs : (k.pcb k.currentRunning).status = .exited := hex
      have hfits := hcons.fits k.currentRunning
      rw [hs] at hfits
      exact h.freeProc hrules hcons.weaken ⟨hfits, hs⟩
    · exact h

theorem SpacesOf.dispatched (h : SpacesOf Own none k) (hrules : OwnRules Own)
    (hi : k.queues.owner i = some .ready)
    (hlive : (k.pcb i).status ≠ .none) :
    SpacesOf Own none (k.dispatched i hi) ∧ CurrentSpace (k.dispatched i hi) := by
  have hpgd : ∀ j, ((k.dispatched i hi).pcb j).pageTable = (k.pcb j).pageTable := by
    intro j
    rcases eq_or_ne j i with rfl | hj
    · rw [Kernel.dispatched_pcb_self]
    · rw [Kernel.dispatched_pcb_of_ne hi hj]
  refine ⟨h.congr (hrules.setCurrentPgd _ _ _) (fun j => ?_) hpgd, (hpgd i).symm⟩
  rcases eq_or_ne j i with rfl | hj
  · unfold Core.Lives
    rw [Kernel.dispatched_pcb_self]
    simp [hlive]
  · unfold Core.Lives
    rw [Kernel.dispatched_pcb_of_ne hi hj]

/-- `do_scheduler` from any consistent kernel. -/
theorem SpacesOf.doScheduler (h : SpacesOf Own none k) (hrules : OwnRules Own)
    (hcons : Consistent none k) (sp : Nat) :
    Safe (k.doScheduler sp) fun k' => SpacesOf Own none k' ∧ CurrentSpace k' := by
  have hcons₀ : Consistent none
      (k.setPcb k.currentRunning { k.cur with kernelSp := sp }) := hcons.setPcb _ rfl rfl rfl
  have h₀ : SpacesOf Own none (k.setPcb k.currentRunning { k.cur with kernelSp := sp }) :=
    h.setPcb rfl rfl
  refine ((SpacesOf.quiet Own none none).checkSleeping ⟨hcons₀, h₀⟩).bind fun k₁ h₁ => ?_
  refine (h₁.1.retire.and (h₁.2.retire hrules h₁.1)).bind fun k₂ h₂ => ?_
  refine Kernel.dispatch_rule fun j rest hitems => ?_
  have hj := Lists.owner_of_cons hitems
  exact h₂.2.dispatched hrules hj (h₂.1.status_ne_none hj)

/-- The running task goes to a queue. -/
theorem SpacesOf.enqueue_current (h : SpacesOf Own none k) (hrules : OwnRules Own)
    (hinv : SchedInv k) {q : QueueId}
    {s : TaskStatus} (hfits : Fits s (some q)) (sp : Nat) :
    Safe (k.enqueue q k.currentRunning s >>= fun k => k.doScheduler sp)
      fun k' => SpacesOf Own none k' ∧ CurrentSpace k' := by
  have hs : s ≠ .none := by
    rintro rfl
    cases hfits
  exact hinv.join_rule hfits fun hoff hcons =>
    (h.enqueued hoff hinv.current_live hs).doScheduler hrules hcons sp

/-- The current directory is left alone by `free_proc`. -/
theorem CurrentSpace.freeProc (h : CurrentSpace k) (i : Task) :
    Safe (k.freeProc i) CurrentSpace := by
  refine CurrentSpace.quiet.freeProc (fun _ => ?_) fun k' h' => h'.setPcb rfl
  exact (freePgd_currentPgd _ _).trans h

theorem SpacesOf.doExit (h : SpacesOf Own none k) (hrules : OwnRules Own)
    (hinv : SchedInv k) (sp : Nat) :
    Safe (k.doExit sp) fun k' => SpacesOf Own none k' ∧ CurrentSpace k' := by
  obtain ⟨hcons, hoff⟩ := hinv.exiting_current
  have hexited : SpacesOf Own none
      (k.setPcb k.currentRunning { k.cur with status := .exited }) := by
    refine h.pcb rfl ⟨?_, fun hi0 => ⟨hinv.current_live hi0, ?_⟩⟩
      fun j hj => Kernel.setPcb_pcb_of_ne hj _
    · rw [Kernel.setPcb_pcb_self]
      rfl
    · rw [Kernel.setPcb_pcb_self]
      simp
  refine ((hcons.freeProc hoff).and (hexited.freeProc hrules hcons hoff)).bind fun k₁ h₁ => ?_
  exact h₁.2.doScheduler hrules h₁.1.1 sp

theorem SpacesOf.doKill (h : SpacesOf Own none k) (hrules : OwnRules Own)
    (hcur : CurrentSpace k) (hinv : SchedInv k)
    {pid : Int} (hex : k.toCore.findPid pid = some k.currentRunning → k.cur.status ≠ .exited)
    (hpid : pid ≠ 0) :
    Safe (k.doKill pid) fun r => SpacesOf Own none r.2 ∧ CurrentSpace r.2 := by
  rcases hinv.doKill_cases hex hpid with ⟨_, heq⟩ | ⟨_, hi0, hrun, heq⟩ |
    ⟨i, q, hq, _, hi0, _, hrun, hlive, hcons, hoff, heq⟩
  · rw [heq]
    exact ⟨h, hcur⟩
  · rw [heq]
    refine ⟨h.pcb rfl ⟨?_, fun _ => ⟨?_, ?_⟩⟩ fun j hj => Kernel.setPcb_pcb_of_ne hj _,
      hcur.setPcb rfl⟩
    · rw [Kernel.setPcb_pcb_self]
      rfl
    · rw [hrun]
      decide
    · rw [Kernel.setPcb_pcb_self]
      simp
  · rw [heq]
    have hkilled : SpacesOf Own none (k.killed i q hq) := by
      refine h.pcb rfl ⟨?_, fun _ => ⟨hlive, ?_⟩⟩ fun j hj => Kernel.killed_pcb_of_ne hq hj
      · rw [Kernel.killed_pcb_self]
      · rw [Kernel.killed_pcb_self]
        simp
    have hcur' : CurrentSpace (k.killed i q hq) :=
      hcur.setPcb (i := i) (p := { k.pcb i with status := .exited }) rfl
    exact ((hkilled.freeProc hrules hcons hoff).and (hcur'.freeProc i)).bind fun k' h' => h'

/-- At most 30 processes live while a PCB is free. -/
theorem card_livePgds_le (hi0 : i ≠ 0) (hi : (k.pcb i).status = .none) :
    (k.toCore.livePgds none).card ≤ 30 := by
  have hsub : (Finset.univ.filter fun j => k.toCore.Lives none j) ⊆
      (Finset.univ.erase 0).erase i := by
    intro j hj
    obtain ⟨hj0, hlive, _⟩ := (Finset.mem_filter.mp hj).2
    refine Finset.mem_erase.mpr ⟨?_, Finset.mem_erase.mpr ⟨hj0, Finset.mem_univ j⟩⟩
    rintro rfl
    exact hlive hi
  have hcard : ((Finset.univ.erase 0).erase i : Finset Task).card = 30 := by
    rw [Finset.card_erase_of_mem (by simp [hi0]), Finset.card_erase_of_mem (Finset.mem_univ _)]
    simp
  exact (Finset.card_image_le.trans (Finset.card_le_card hsub)).trans hcard.le

/-- A new process with a new page directory. -/
theorem SpacesOf.born (h : SpacesOf Own none k) (hrules : OwnRules Own)
    (hi0 : i ≠ 0) (hnone : (k.pcb i).status = .none)
    {k' : Kernel ListQueues} (hmm : k'.mm = k.mm.spawnPgd)
    (hlive : (k'.pcb i).status ≠ .none)
    (hpgd : (k'.pcb i).pageTable = (allocPage k.mm.pageCtrlPgd).1)
    (hother : ∀ j, j ≠ i → k'.pcb j = k.pcb j) : SpacesOf Own none k' := by
  obtain ⟨hfresh, howns⟩ := hrules.newPgd _ _ h.owns (card_livePgds_le hi0 hnone)
  have hself : k'.toCore.Lives none i := ⟨hi0, hlive, by simp⟩
  have hlives : ∀ j, j ≠ i → (k'.toCore.Lives none j ↔ k.toCore.Lives none j) := by
    intro j hj
    unfold Core.Lives
    rw [hother j hj]
  have hne : ∀ j, k.toCore.Lives none j → j ≠ i := by
    rintro j hj rfl
    exact hj.2.1 hnone
  have hpgds : k'.toCore.livePgds none =
      insert (allocPage k.mm.pageCtrlPgd).1 (k.toCore.livePgds none) := by
    ext p
    simp only [Finset.mem_insert, mem_livePgds]
    constructor
    · rintro ⟨j, hj, rfl⟩
      rcases eq_or_ne j i with rfl | hji
      · exact Or.inl hpgd
      · exact Or.inr ⟨j, (hlives j hji).mp hj, by rw [hother j hji]⟩
    · rintro (rfl | ⟨j, hj, rfl⟩)
      · exact ⟨i, hself, hpgd⟩
      · exact ⟨j, (hlives j (hne j hj)).mpr hj, by rw [hother j (hne j hj)]⟩
  have hnew : ∀ j, j ≠ i → k'.toCore.Lives none j →
      (k'.pcb j).pageTable ≠ (k'.pcb i).pageTable := by
    intro j hj hl heq
    rw [hother j hj, hpgd] at heq
    exact hfresh (mem_livePgds.mpr ⟨j, (hlives j hj).mp hl, heq⟩)
  refine ⟨?_, fun j l hj hl heq => ?_, ?_⟩
  · rw [hpgds, hmm]
    exact howns
  · by_cases hji : j = i <;> by_cases hli : l = i
    · rw [hji, hli]
    · rw [hji] at heq
      exact absurd heq.symm (hnew l hli hl)
    · rw [hli] at heq
      exact absurd heq (hnew j hji hj)
    · rw [hother j hji, hother l hli] at heq
      exact h.inj j l ((hlives j hji).mp hj) ((hlives l hli).mp hl) heq
  · rw [hother 0 hi0.symm]
    exact h.zero

theorem SpacesOf.doSpawn (h : SpacesOf Own none k) (hrules : OwnRules Own)
    (hcur : CurrentSpace k) (hinv : SchedInv k)
    (argc : Nat) : Safe (k.doSpawn argc) fun r => SpacesOf Own none r.2 ∧ CurrentSpace r.2 := by
  simp only [Kernel.doSpawn]
  cases halloc : k.toCore.allocPcb with
  | none => exact ⟨h, hcur⟩
  | some i =>
    obtain ⟨hi0, hnone⟩ := Core.allocPcb_eq_some halloc
    have howner : k.queues.owner i = none := by
      have hfits := hinv.fits i
      rw [hnone] at hfits
      exact hfits
    simp only
    split
    · rw [Kernel.setPcbReady_eq (k := { k with toCore := (k.toCore.newProcess argc).2.2 })
        howner]
      have hcurne : k.currentRunning ≠ i := by
        rintro hc
        have hlive := hinv.current_live (by rw [hc]; exact hi0)
        rw [hc] at hlive
        exact hlive hnone
      refine ⟨h.born hrules hi0 hnone rfl ?_ ?_ fun j hj => ?_, hcur.trans ?_⟩
      · simp [Kernel.born]
      · simp [Kernel.born, Core.newProcess]
      · simp [Kernel.born, Core.newProcess, hj]
      · simp [Kernel.born, Core.newProcess, hcurne]
    · trivial

/-- The running process, when there is a page directory. -/
theorem SpacesOf.current_mem (h : SpacesOf Own none k) (hcur : CurrentSpace k)
    (hinv : SchedInv k) (hpgd : k.mm.currentPgd ≠ 0) :
    k.mm.currentPgd ∈ k.toCore.livePgds none := by
  have hc0 : k.currentRunning ≠ 0 := by
    intro hc
    rw [CurrentSpace, hc, h.zero] at hcur
    exact hpgd hcur
  exact mem_livePgds.mpr ⟨k.currentRunning, ⟨hc0, hinv.current_live hc0, by simp⟩, hcur.symm⟩

/-- One event keeps the page directories, as long as a page fault does. -/
theorem SpacesOf.step_of (h : SpacesOf Own none k) (hrules : OwnRules Own)
    (hcur : CurrentSpace k) (hinv : SchedInv k)
    {e : Event} (hkill : ∀ pid, e.call = .kill pid → pid ≠ 0 ∧
      (k.toCore.findPid pid = some k.currentRunning → k.cur.status ≠ .exited))
    {R : Memory → Prop}
    (hfault : ∀ addr, e.call = .pageFault addr → k.mm.currentPgd ∈ k.toCore.livePgds none →
      R (k.mm.doTlbRefill addr) → Own (k.mm.doTlbRefill addr) (k.toCore.livePgds none)) :
    Safe (kernelStep k e) fun k' => R k'.mm → SpacesOf Own none k' ∧ CurrentSpace k' := by
  obtain ⟨sp, call⟩ := e
  have hquiet := (SpacesOf.quiet Own none none).and CurrentSpace.quiet
  have hnow := And.intro (And.intro hinv.toConsistent h) hcur
  have hdone : ∀ k' : Kernel ListQueues, (Consistent none k' ∧ SpacesOf Own none k') ∧
      CurrentSpace k' → R k'.mm → SpacesOf Own none k' ∧ CurrentSpace k' :=
    fun _ h _ => ⟨h.1.2, h.2⟩
  cases call with
  | spawn argc => exact (h.doSpawn hrules hcur hinv argc).bind fun _ h' _ => h'
  | yield => exact (h.doScheduler hrules hinv.toConsistent sp).mono fun _ h' _ => h'
  | timer count =>
    simp only [kernelStep, Kernel.irqTimer]
    have hinv' : SchedInv (k.updateTimeElapsed count) := hinv.congr rfl rfl rfl rfl
    have h' : SpacesOf Own none (k.updateTimeElapsed count) :=
      h.congr id (fun _ => Iff.rfl) fun _ => rfl
    exact (h'.doScheduler hrules hinv'.toConsistent sp).mono fun _ h' _ => h'
  | sleep time =>
    simp only [kernelStep, Kernel.doSleep]
    generalize (k.getTimer + time) % 2 ^ 32 = sleepUntil
    have hinv' := hinv.setPcb_current (p := { k.cur with sleepUntil := sleepUntil }) rfl rfl
      rfl
    have h' : SpacesOf Own none
        (k.setPcb k.currentRunning { k.cur with sleepUntil := sleepUntil }) :=
      h.setPcb rfl rfl
    exact (h'.enqueue_current hrules hinv' (q := .sleep) (s := .sleeping) rfl sp).mono
      fun _ h' _ => h'
  | block queue =>
    exact (h.enqueue_current hrules hinv (q := .block queue) (s := .blocked) (Or.inr ⟨_, rfl⟩)
      sp).mono fun _ h' _ => h'
  | unblockOne queue => exact (hquiet.doUnblockOne hnow queue).mono hdone
  | unblockAll queue => exact (hquiet.doUnblockAll hnow queue).mono hdone
  | waitpid pid =>
    simp only [kernelStep, Kernel.doWaitpid]
    split
    · have hinv' := hinv.setPcb_current (p := { k.cur with waitpid := pid }) rfl rfl rfl
      have h' : SpacesOf Own none (k.setPcb k.currentRunning { k.cur with waitpid := pid }) :=
        h.setPcb rfl rfl
      exact (h'.enqueue_current hrules hinv' (q := .waitpid) (s := .blocked) (Or.inl rfl)
        sp).mono fun _ h' _ => h'
    · exact fun _ => ⟨h, hcur⟩
  | exit => exact (h.doExit hrules hinv sp).mono fun _ h' _ => h'
  | kill pid =>
    obtain ⟨hpid, hex⟩ := hkill pid rfl
    exact (h.doKill hrules hcur hinv hex hpid).bind fun _ h' _ => h'
  | acquire lock =>
    simp only [kernelStep, Kernel.doMutexLockAcquire]
    split
    · exact hdone _ (hquiet.lock _ lock _ (hquiet.procGetLock hnow lock))
    · exact (h.enqueue_current hrules hinv (q := .block (.lock lock)) (s := .blocked)
        (Or.inr ⟨_, rfl⟩) sp).mono fun _ h' _ => h'
  | release lock => exact (hquiet.doMutexLockRelease hnow lock).mono hdone
  | barrierWait b =>
    have hinv' : SchedInv (k.setBarrierNow b ((k.barrier b).now + 1)) :=
      hinv.congr rfl rfl rfl rfl
    have h' : SpacesOf Own none (k.setBarrierNow b ((k.barrier b).now + 1)) :=
      h.congr id (fun _ => Iff.rfl) fun _ => rfl
    simp only [kernelStep, Kernel.doBarrierWait]
    split
    · exact (h'.enqueue_current hrules hinv' (q := .block (.barrier b)) (s := .blocked)
        (Or.inr ⟨_, rfl⟩) sp).mono fun _ h' _ => h'
    · refine (hquiet.doUnblockAll ⟨⟨hinv'.toConsistent, h'⟩, hcur⟩ _).bind fun k₁ h₁ _ => ?_
      exact ⟨h₁.1.2.congr id (fun _ => Iff.rfl) fun _ => rfl, h₁.2⟩
  | pageFault addr =>
    simp only [kernelStep, Kernel.pageFault]
    split
    · trivial
    · rename_i hpgd
      intro hr
      have howns := hfault addr rfl (h.current_mem hcur hinv hpgd) hr
      exact ⟨h.congr (fun _ => howns) (fun _ => Iff.rfl) fun _ => rfl,
        (doTlbRefill_currentPgd _ _).trans hcur⟩

end Events

end MipsOs.Sched
