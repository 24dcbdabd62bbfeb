import MipsOs.Fs.FileTables
import MipsOs.Sched.Moves

/-!
# Open files and the life of processes

`OpenSystem` runs the kernel beside the open files: `open` and `close` are
system calls of the running process.  `set_pcb` leaves `files` of the PCB as it
is, and `free_proc` closes nothing.  So the descriptors of a process that dies
stay in its PCB, and the next process in that PCB finds them there.

The runs start behind `files_init`.  The entries behind the page of the table are as
the memory has them, which `files_init` does not clear.

`open_files_owned` is the result: when none of these entries is marked as used and
nobody dies with an open descriptor, the used entries of the table belong to exactly
one descriptor of one live process.  A marked entry and a death with an open descriptor
break that.
-/

namespace MipsOs.Fs

open MipsOs.Lib MipsOs.Sched

/-- The kernel, the open files, and who has opened a file since it was
spawned. -/
structure OpenSystem where
  kernel : Kernel PtrQueues
  tables : FileTables Task
  opened : Task → Bool

/-- An event of the kernel, or a successful `open` or `close` of the running
process. -/
inductive OpenEvent where
  | kernel (e : Event)
  | opens (inodeId access : Nat) (inode : Inode)
  | closes (fd : Fin maxFiles)

namespace OpenSystem

/-- Who has opened a file after a call: a new process has not. -/
def openedAfter (s : OpenSystem) : Call → Task → Bool
  | .spawn _ =>
    match s.kernel.toCore.allocPcb with
    | none => s.opened
    | some i => Function.update s.opened i false
  | _ => s.opened

/-- One event. -/
def step (s : OpenSystem) : OpenEvent → Option OpenSystem
  | .kernel e => (kernelRun s.kernel e).map fun k =>
      { s with kernel := k, opened := s.openedAfter e.call }
  | .opens inodeId access inode =>
    (s.tables.openFile s.kernel.currentRunning inodeId access inode).map fun (_, t) =>
      { s with tables := t, opened := Function.update s.opened s.kernel.currentRunning true }
  | .closes fd =>
    (s.tables.closeFile s.kernel.currentRunning fd).map fun t => { s with tables := t }

/-- Pid 0 is not killed, and files are opened and closed by processes. -/
def EventOk (s : OpenSystem) : OpenEvent → Prop
  | .kernel e => e.call ≠ .kill 0
  | _ => s.kernel.currentRunning ≠ 0

/-- Nobody dies in the event with an open descriptor. -/
def DiesClosed (s : OpenSystem) : OpenEvent → Prop
  | .kernel e => ∀ p, s.kernel.toCore.dying e.call = some p → ∀ fd, s.tables.fds p fd = none
  | _ => True

instance (s : OpenSystem) : (e : OpenEvent) → Decidable (s.EventOk e)
  | .kernel e => inferInstanceAs (Decidable (e.call ≠ .kill 0))
  | .opens _ _ _ => inferInstanceAs (Decidable (s.kernel.currentRunning ≠ 0))
  | .closes _ => inferInstanceAs (Decidable (s.kernel.currentRunning ≠ 0))

instance (s : OpenSystem) : (e : OpenEvent) → Decidable (s.DiesClosed e)
  | .kernel e => inferInstanceAs (Decidable (∀ p, s.kernel.toCore.dying e.call = some p →
      ∀ fd, s.tables.fds p fd = none))
  | .opens _ _ _ => inferInstanceAs (Decidable True)
  | .closes _ => inferInstanceAs (Decidable True)

/-- The system after boot.  `behind` is what the memory behind the page of `files`
holds. -/
def boot (barrier : BarrierId → Barrier) (tables : Nat → Nat → Nat)
    (behind : Fin globalMaxFiles → OpenFile) : OpenSystem where
  kernel := bootKernel barrier tables
  tables := FileTables.init behind
  opened := fun _ => false

/-- A process that has not been freed. -/
def Live (s : OpenSystem) (p : Task) : Prop := p ≠ 0 ∧ (s.kernel.pcb p).status ≠ .none

instance (s : OpenSystem) (p : Task) : Decidable (s.Live p) :=
  inferInstanceAs (Decidable (_ ∧ _))

/-- The ownership of the open files. -/
structure Owned (s : OpenSystem) : Prop where
  referenced : ∀ f, (s.tables.files f).inUse = true →
    ∃! r : Task × Fin maxFiles, s.Live r.1 ∧ s.tables.fds r.1 r.2 = some f
  in_use : ∀ p fd f, s.Live p → s.tables.fds p fd = some f → (s.tables.files f).inUse = true
  unopened : ∀ p, s.Live p → s.opened p = false → ∀ fd, s.tables.fds p fd = none

/-! ## The invariant -/

/-- The ownership, and free PCBs have no open descriptor. -/
structure Inv (s : OpenSystem) (a : Kernel ListQueues) : Prop where
  follows : Follows a s.kernel
  run : RunInv a
  matched : s.tables.Matched
  live : ∀ p fd f, s.tables.fds p fd = some f → s.Live p ∧ s.opened p = true

variable {s s' : OpenSystem} {a : Kernel ListQueues} {e : OpenEvent}
  {behind : Fin globalMaxFiles → OpenFile}

theorem inv_boot (barrier : BarrierId → Barrier) (tables : Nat → Nat → Nat)
    (hbehind : UnusedBehind behind) :
    (boot barrier tables behind).Inv (bootLists barrier tables) where
  follows := bootLists_follows barrier tables
  run := bootLists_runInv barrier tables
  matched := FileTables.matched_init hbehind
  live := by
    intro p fd f hfd
    cases hfd

theorem Inv.owned (h : s.Inv a) : s.Owned where
  referenced := by
    intro f hused
    obtain ⟨p, fd, hfd⟩ := (h.matched.used_iff f).mp hused
    refine ⟨(p, fd), ⟨(h.live p fd f hfd).1, hfd⟩, ?_⟩
    rintro ⟨p', fd'⟩ ⟨_, hfd'⟩
    obtain ⟨rfl, rfl⟩ := h.matched.unique f p' p fd' fd hfd' hfd
    rfl
  in_use := fun p fd f _ hfd => (h.matched.used_iff f).mpr ⟨p, fd, hfd⟩
  unopened := by
    intro p _ hunopened fd
    cases hfd : s.tables.fds p fd with
    | none => rfl
    | some f =>
      have hopened := (h.live p fd f hfd).2
      rw [hunopened] at hopened
      cases hopened

/-- The running process is alive. -/
theorem Inv.current_live (h : s.Inv a) (hcur : s.kernel.currentRunning ≠ 0) :
    s.Live s.kernel.currentRunning := by
  have hlive := h.run.current_live
  rw [← h.follows.core] at hlive
  exact ⟨hcur, hlive hcur⟩

/-- Files are opened by processes that live, so a new process has opened
nothing. -/
theorem openedAfter_of_ne {call : Call} {p : Task}
    (h : ∀ argc, call = .spawn argc → s.kernel.toCore.allocPcb ≠ some p) :
    s.openedAfter call p = s.opened p := by
  cases call with
  | spawn argc =>
    simp only [openedAfter]
    cases halloc : s.kernel.toCore.allocPcb with
    | none => rfl
    | some i =>
      refine Function.update_of_ne ?_ _ _
      rintro rfl
      exact h argc rfl halloc
  | _ => rfl

/-- An event of the kernel in which nobody dies with an open descriptor. -/
theorem Inv.kernel {e : Event} {k : Kernel PtrQueues} (h : s.Inv a) (hkill : e.call ≠ .kill 0)
    (hcond : s.DiesClosed (.kernel e)) (hstep : kernelStep s.kernel e = .ok k) :
    ∃ a', ({ s with kernel := k, opened := s.openedAfter e.call } : OpenSystem).Inv a' := by
  obtain ⟨a', hfollows', hrun', hmoves⟩ := h.run.follow h.follows hkill hstep
  refine ⟨a', hfollows', hrun', h.matched, fun p fd f hfd => ?_⟩
  obtain ⟨⟨hp0, hlive⟩, hopened⟩ := h.live p fd f hfd
  have hstays : s.kernel.toCore.dying e.call ≠ some p := by
    intro hdying
    rw [hcond p hdying fd] at hfd
    cases hfd
  have hlive' := hmoves.lifecycle.living p hp0
  rw [← h.follows.core] at hlive'
  refine ⟨⟨hp0, ?_⟩, ?_⟩
  · show (k.pcb p).status ≠ .none
    rw [hfollows'.core]
    exact hlive' hlive hstays
  · show s.openedAfter e.call p = true
    rw [openedAfter_of_ne, hopened]
    intro argc _ halloc
    exact hlive (Core.allocPcb_eq_some halloc).2

theorem Inv.step (h : s.Inv a) (hok : s.EventOk e) (hcond : s.DiesClosed e)
    (hstep : s.step e = some s') : ∃ a', s'.Inv a' := by
  cases e with
  | kernel e =>
    obtain ⟨k, hk, rfl⟩ := Option.map_eq_some_iff.mp hstep
    exact h.kernel hok hcond (kernelRun_eq_some.mp hk)
  | opens inodeId access inode =>
    obtain ⟨⟨fd, t⟩, ht, rfl⟩ := Option.map_eq_some_iff.mp hstep
    obtain ⟨f, _, _, _, hfds⟩ := FileTables.openFile_cases ht
    refine ⟨a, h.follows, h.run, h.matched.openFile ht, fun p fd' g hg => ?_⟩
    show s.Live p ∧ Function.update s.opened s.kernel.currentRunning true p = true
    by_cases hp : p = s.kernel.currentRunning
    · subst hp
      exact ⟨h.current_live hok, Function.update_self ..⟩
    · change t.fds p fd' = some g at hg
      rw [hfds, FileTables.setFd_of_ne _ fun heq => hp heq.1] at hg
      rw [Function.update_of_ne hp]
      exact h.live p fd' g hg
  | closes fd =>
    obtain ⟨t, ht, rfl⟩ := Option.map_eq_some_iff.mp hstep
    obtain ⟨f, _, _, hfds⟩ := FileTables.closeFile_cases ht
    refine ⟨a, h.follows, h.run, h.matched.closeFile ht, fun p fd' g hg => ?_⟩
    change t.fds p fd' = some g at hg
    by_cases hp : p = s.kernel.currentRunning ∧ fd' = fd
    · rw [hfds, hp.1, hp.2, FileTables.setFd_self] at hg
      cases hg
    · rw [hfds, FileTables.setFd_of_ne _ hp] at hg
      exact h.live p fd' g hg

/-- A process that dies with an open descriptor leaves an entry that is used and
that no live process refers to. -/
theorem Inv.leaks (h : s.Inv a) (hok : s.EventOk e) (hcond : ¬ s.DiesClosed e)
    (hstep : s.step e = some s') : ¬ s'.Owned := by
  cases e with
  | kernel e =>
    obtain ⟨k, hk, rfl⟩ := Option.map_eq_some_iff.mp hstep
    simp only [DiesClosed, not_forall] at hcond
    obtain ⟨p, hdying, fd, hfd⟩ := hcond
    obtain ⟨f, hf⟩ := Option.ne_none_iff_exists'.mp hfd
    rw [h.follows.core] at hdying
    have hfreed : (k.pcb p).status = .none :=
      h.run.follow_freed h.follows hok hdying (kernelRun_eq_some.mp hk)
    intro howned
    obtain ⟨⟨p', fd'⟩, ⟨⟨_, hlive⟩, hf'⟩, _⟩ :=
      howned.referenced f ((h.matched.used_iff f).mpr ⟨p, fd, hf⟩)
    obtain ⟨rfl, rfl⟩ := h.matched.unique f p' p fd' fd hf' hf
    exact hlive hfreed
  | opens inodeId access inode => exact absurd trivial hcond
  | closes fd => exact absurd trivial hcond

/-! ## The result -/

theorem reaches_inv {barrier : BarrierId → Barrier} {tables : Nat → Nat → Nat}
    (hbehind : UnusedBehind behind)
    (h : Reaches OpenSystem.step (fun s e => s.EventOk e ∧ s.DiesClosed e)
      (boot barrier tables behind) s) : ∃ a, s.Inv a := by
  refine h.invariant (fun s => ∃ a, s.Inv a) ⟨_, inv_boot barrier tables hbehind⟩ ?_
  rintro s e s' ⟨a, hinv⟩ ⟨hok, hcond⟩ hstep
  exact hinv.step hok hcond hstep

/-- At boot no process has a descriptor, so an entry that is marked as used belongs to
nobody. -/
theorem boot_owned_iff (barrier : BarrierId → Barrier) (tables : Nat → Nat → Nat) :
    (boot barrier tables behind).Owned ↔ UnusedBehind behind := by
  constructor
  · intro howned f hf
    by_contra hmark
    have hused : ((boot barrier tables behind).tables.files f).inUse = true := by
      refine (FileTables.init_inUse f).trans ?_
      rw [decide_eq_true hf, Bool.true_and]
      exact Bool.not_eq_false _ ▸ hmark
    obtain ⟨_, ⟨_, hfd⟩, _⟩ := howned.referenced f hused
    cases hfd
  · intro hbehind
    exact (inv_boot barrier tables hbehind).owned

/-- The open files are owned at boot exactly if no entry behind the page of the table is
marked as used.  Then they are owned in every state of every run in which no process
dies with an open descriptor, and from there an event keeps the ownership exactly if
nobody dies in it with an open descriptor. -/
theorem open_files_owned (barrier : BarrierId → Barrier) (tables : Nat → Nat → Nat)
    (behind : Fin globalMaxFiles → OpenFile) {s : OpenSystem}
    (h : Reaches OpenSystem.step (fun s e => s.EventOk e ∧ s.DiesClosed e)
      (boot barrier tables behind) s) :
    ((boot barrier tables behind).Owned ↔ UnusedBehind behind) ∧
      (UnusedBehind behind → s.Owned ∧
        ∀ e s', s.EventOk e → s.step e = some s' → (s'.Owned ↔ s.DiesClosed e)) := by
  refine ⟨boot_owned_iff barrier tables, fun hbehind => ?_⟩
  obtain ⟨a, hinv⟩ := reaches_inv hbehind h
  refine ⟨hinv.owned, fun e s' hok hstep => ⟨fun howned => ?_, fun hcond => ?_⟩⟩
  · by_contra hcond
    exact hinv.leaks hok hcond hstep howned
  · obtain ⟨a', hinv'⟩ := hinv.step hok hcond hstep
    exact hinv'.owned

/-- The boot state over cleared tables and memory. -/
def blank : OpenSystem := boot (fun _ => { goal := 1, now := 0 }) (fun _ _ => 0) zeroBehind

/-- A process opens a file, closes it and exits. -/
theorem blank_close_before_exit :
    ∃ s, runIf OpenSystem.step (fun s e => s.EventOk e ∧ s.DiesClosed e) blank
        [.kernel ⟨0, .spawn 0⟩, .kernel ⟨0, .spawn 0⟩, .kernel ⟨0, .yield⟩,
          .opens 5 3 OpenFile.blank.inode, .closes 0, .kernel ⟨0, .exit⟩] = some s ∧
      s.Owned ∧ ∀ e s', s.EventOk e → s.step e = some s' → (s'.Owned ↔ s.DiesClosed e) := by
  have hrun : (runIf OpenSystem.step (fun s e => s.EventOk e ∧ s.DiesClosed e) blank
      [.kernel ⟨0, .spawn 0⟩, .kernel ⟨0, .spawn 0⟩, .kernel ⟨0, .yield⟩,
        .opens 5 3 OpenFile.blank.inode, .closes 0, .kernel ⟨0, .exit⟩]).isSome = true := by
    decide +kernel
  obtain ⟨s, hs⟩ := Option.isSome_iff_exists.mp hrun
  exact ⟨s, hs, (open_files_owned _ _ _ (reaches_of_runIf hs)).2 zeroBehind_unused⟩

/-- A process exits with an open descriptor.  The entry stays used and no live
process refers to it; the descriptor stays in the free PCB, where the next
process finds it. -/
theorem blank_exit_leaks_descriptor :
    ∃ s₀ s, runIf OpenSystem.step (fun s e => s.EventOk e ∧ s.DiesClosed e) blank
        [.kernel ⟨0, .spawn 0⟩, .kernel ⟨0, .spawn 0⟩, .kernel ⟨0, .yield⟩,
          .opens 5 3 OpenFile.blank.inode] = some s₀ ∧
      s₀.step (.kernel ⟨0, .exit⟩) = some s ∧ (s.kernel.pcb 1).status = .none ∧
      (s.tables.files 0).inUse = true ∧ s.tables.fds 1 0 = some 0 ∧ ¬ s.Owned := by
  have hrun : (runIf OpenSystem.step (fun s e => s.EventOk e ∧ s.DiesClosed e) blank
      [.kernel ⟨0, .spawn 0⟩, .kernel ⟨0, .spawn 0⟩, .kernel ⟨0, .yield⟩,
        .opens 5 3 OpenFile.blank.inode]).map (fun s₀ =>
          (decide (s₀.DiesClosed (.kernel ⟨0, .exit⟩)),
            (s₀.step (.kernel ⟨0, .exit⟩)).map fun s => decide ((s.kernel.pcb 1).status = .none ∧
              (s.tables.files 0).inUse = true ∧ s.tables.fds 1 0 = some 0))) =
      some (false, some true) := by
    decide +kernel
  obtain ⟨s₀, hs₀, hpair⟩ := Option.map_eq_some_iff.mp hrun
  obtain ⟨hcond, hnext⟩ := Prod.mk.inj hpair
  obtain ⟨s, hs, hstate⟩ := Option.map_eq_some_iff.mp hnext
  obtain ⟨hnone, hused, hfd⟩ := of_decide_eq_true hstate
  obtain ⟨a, hinv⟩ := reaches_inv zeroBehind_unused (reaches_of_runIf hs₀)
  exact ⟨s₀, s, hs₀, hs, hnone, hused, hfd,
    hinv.leaks (by simp [EventOk]) (of_decide_eq_false hcond) hs⟩

end OpenSystem

end MipsOs.Fs
