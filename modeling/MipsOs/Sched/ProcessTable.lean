import MipsOs.Sched.BootTask

/-!
# Pids that name no process

`do_kill` and `do_waitpid` look for a pid in all of `pcb_list`, whether a PCB
is in use or not.  PCB 0 has pid 0, and `free_pcb` leaves pid 0 behind.

`ProcSystem` runs the pointer kernel beside a record of the processes: which pid
`do_spawn` gave to the process in a PCB, until the process is freed.
`pid_rejected_iff` is the result: of the pids that no process has, the two calls
reject all but 0.
-/

namespace MipsOs.Sched

open MipsOs.Lib

/-- The pointer kernel, and the pids of the processes that were spawned and are not freed. -/
structure ProcSystem where
  kernel : Kernel PtrQueues
  procs : Task → Option Int

namespace ProcSystem

/-- A call of `do_spawn` that finds a PCB makes a process, and the process that
dies in a call is freed. -/
def procsAfter (s : ProcSystem) : Call → Task → Option Int
  | .spawn _ =>
    match s.kernel.toCore.allocPcb with
    | none => s.procs
    | some i => Function.update s.procs i (some s.kernel.nextPid)
  | call =>
    match s.kernel.toCore.dying call with
    | none => s.procs
    | some i => Function.update s.procs i none

/-- One event, with the record of the processes. -/
def step (s : ProcSystem) (e : Event) : Option ProcSystem :=
  (kernelRun s.kernel e).map fun k => { kernel := k, procs := s.procsAfter e.call }

/-- The boot code does not call what puts the running task into a queue. -/
def EventOk (s : ProcSystem) (e : Event) : Prop := BootOk s.kernel.toCore e

instance (s : ProcSystem) (e : Event) : Decidable (s.EventOk e) :=
  inferInstanceAs (Decidable (BootOk _ _))

/-- The system after initialisation.  Nothing was spawned. -/
def boot (barrier : BarrierId → Barrier) (tables : Nat → Nat → Nat) : ProcSystem where
  kernel := bootKernel barrier tables
  procs := fun _ => none

/-- No process that was spawned and is not freed has the pid. -/
def NoProcess (s : ProcSystem) (pid : Int) : Prop := ∀ i, s.procs i ≠ some pid

instance (s : ProcSystem) (pid : Int) : Decidable (s.NoProcess pid) :=
  inferInstanceAs (Decidable (∀ _, _))

/-- Both calls answer at once, and nothing changes. -/
def Rejects (s : ProcSystem) (pid : Int) : Prop :=
  s.kernel.doKill pid = .ok (-1, s.kernel) ∧ ∀ sp, s.kernel.doWaitpid sp pid = .ok s.kernel

/-! ## The record and the PCBs -/

/-- The PCBs in use are the processes of the record. -/
def Recorded (s : ProcSystem) (a : Kernel ListQueues) : Prop :=
  ∀ i pid, s.procs i = some pid ↔ i ≠ 0 ∧ (a.pcb i).status ≠ .none ∧ (a.pcb i).pid = pid

/-- The kernel follows a list kernel, and the record is right. -/
structure Inv (s : ProcSystem) (a : Kernel ListQueues) : Prop where
  follows : Follows a s.kernel
  run : BootInv a
  recorded : s.Recorded a

theorem inv_boot (barrier : BarrierId → Barrier) (tables : Nat → Nat → Nat) :
    (boot barrier tables).Inv (bootLists barrier tables) where
  follows := bootLists_follows barrier tables
  run := bootLists_bootInv barrier tables
  recorded := by
    intro i pid
    have hnone : ((bootLists barrier tables).pcb i).status = .none := by
      simp only [bootLists, bootCore]
      split <;> rfl
    constructor
    · rintro ⟨⟩
    · rintro ⟨_, hlive, _⟩
      exact absurd hnone hlive

section Step

variable {s : ProcSystem} {a a' : Kernel ListQueues} {e : Event}

/-- `do_spawn` records the process it makes. -/
theorem Recorded.spawn (h : s.Recorded a) (hinv : SchedInv a)
    (hcore : s.kernel.toCore = a.toCore) {argc : Nat} {answer : Int}
    (hspawn : a.doSpawn argc = .ok (answer, a')) :
    ∀ i pid, s.procsAfter (.spawn argc) i = some pid ↔
      i ≠ 0 ∧ (a'.pcb i).status ≠ .none ∧ (a'.pcb i).pid = pid := by
  simp only [procsAfter, hcore]
  rcases hinv.doSpawn_cases argc with heq | heq | ⟨j, hoff, halloc, heq⟩
  · have hnone : a.toCore.allocPcb = none := by
      cases halloc : a.toCore.allocPcb with
      | none => rfl
      | some j =>
        have hpid := hinv.nextPid_pos
        simp only [Kernel.doSpawn, halloc] at heq
        split at heq
        · obtain ⟨k, _, hk⟩ := bind_eq_ok.mp heq
          have hanswer : a.nextPid = -1 := congrArg Prod.fst (Except.ok.inj hk)
          omega
        · cases heq
    obtain rfl : a = a' := congrArg Prod.snd (Except.ok.inj (heq.symm.trans hspawn))
    rw [hnone]
    exact h
  · rw [heq] at hspawn
    cases hspawn
  · obtain rfl : a.spawned j argc hoff = a' :=
      congrArg Prod.snd (Except.ok.inj (heq.symm.trans hspawn))
    have hj := (Core.allocPcb_eq_some halloc).1
    rw [halloc]
    intro i pid
    by_cases hi : i = j
    · subst hi
      rw [Kernel.spawned_pcb_self]
      simp [hj]
    · rw [Kernel.spawned_pcb_of_ne hoff hi]
      simp only [Function.update_of_ne hi]
      exact h i pid

/-- Another call records the death of the process it frees. -/
theorem Recorded.lives (h : s.Recorded a) (hcore : s.kernel.toCore = a.toCore)
    (hlives : Lifecycle a.toCore e.call a a') (hcall : ∀ argc, e.call ≠ .spawn argc)
    (hfreed : ∀ d, a.toCore.dying e.call = some d → (a'.pcb d).status = .none) :
    ∀ i pid, s.procsAfter e.call i = some pid ↔
      i ≠ 0 ∧ (a'.pcb i).status ≠ .none ∧ (a'.pcb i).pid = pid := by
  have hafter : s.procsAfter e.call = match a.toCore.dying e.call with
      | none => s.procs
      | some i => Function.update s.procs i none := by
    rw [← hcore]
    unfold procsAfter
    split
    · rename_i argc hspawn
      exact absurd hspawn (hcall argc)
    · rfl
  have hsame : ∀ i, a.toCore.dying e.call ≠ some i → i ≠ 0 →
      ((a'.pcb i).status ≠ .none ↔ (a.pcb i).status ≠ .none) ∧
        ((a.pcb i).status ≠ .none → (a'.pcb i).pid = (a.pcb i).pid) := by
    intro i hi h0
    have hlive : (a.pcb i).status ≠ .none → (a'.pcb i).status ≠ .none :=
      fun hlive => hlives.living i h0 hlive hi
    refine ⟨⟨fun hlive' hnone => ?_, hlive⟩, fun hl => (hlives.kept i h0 hl (hlive hl)).1⟩
    obtain ⟨⟨argc, hspawn⟩, _⟩ := hlives.born i h0 hnone hlive'
    exact hcall argc hspawn
  intro i pid
  rw [hafter]
  have hother : a.toCore.dying e.call ≠ some i → (s.procs i = some pid ↔
      i ≠ 0 ∧ (a'.pcb i).status ≠ .none ∧ (a'.pcb i).pid = pid) := by
    intro hi
    rw [h i pid]
    constructor
    · rintro ⟨h0, hlive, hpid⟩
      obtain ⟨hiff, hkept⟩ := hsame i hi h0
      exact ⟨h0, hiff.mpr hlive, (hkept hlive).trans hpid⟩
    · rintro ⟨h0, hlive, hpid⟩
      obtain ⟨hiff, hkept⟩ := hsame i hi h0
      exact ⟨h0, hiff.mp hlive, (hkept (hiff.mp hlive)).symm.trans hpid⟩
  cases hdying : a.toCore.dying e.call with
  | none => exact hother (by simp [hdying])
  | some d =>
    by_cases hi : i = d
    · subst hi
      simp [hfreed i hdying]
    · simp only [Function.update_of_ne hi]
      exact hother (by simpa [hdying] using Ne.symm hi)

theorem Inv.step {s' : ProcSystem} (h : s.Inv a) (hok : s.EventOk e)
    (hstep : s.step e = some s') : ∃ a', s'.Inv a' := by
  obtain ⟨k', hk, rfl⟩ := Option.map_eq_some_iff.mp hstep
  obtain ⟨a', hfollows', hinv', ha', hmoves⟩ := h.run.follow h.follows hok hk
  refine ⟨a', hfollows', hinv', ?_⟩
  have hcore := h.follows.core
  by_cases hspawn : ∃ argc, e.call = .spawn argc
  · obtain ⟨argc, hcall⟩ := hspawn
    simp only [kernelStep, hcall] at ha'
    cases hanswer : a.doSpawn argc with
    | error f =>
      rw [hanswer] at ha'
      cases ha'
    | ok r =>
      rw [hanswer] at ha'
      obtain ⟨answer, k⟩ := r
      obtain rfl : k = a' := Except.ok.inj ha'
      show ∀ i pid, s.procsAfter e.call i = some pid ↔ _
      rw [hcall]
      exact h.recorded.spawn h.run.toSchedInv hcore hanswer
  · refine h.recorded.lives hcore hmoves.lifecycle (fun argc hcall => hspawn ⟨argc, hcall⟩) ?_
    intro d hdying
    have hkill : e.call ≠ .kill 0 := by
      intro hcall
      rw [h.run.kill_zero hcall] at ha'
      cases ha'
    exact (h.run.dying_freed hkill hdying).of_ok ha'

/-- No PCB has a pid that names no process, unless the pid is 0. -/
theorem Inv.findPid (h : s.Inv a) {pid : Int} (hnone : s.NoProcess pid) (hpid : pid ≠ 0) :
    s.kernel.toCore.findPid pid = none := by
  rw [h.follows.core]
  refine List.find?_eq_none.mpr fun i _ hi => ?_
  have hi : (a.pcb i).pid = pid := by simpa using hi
  have h0 : i ≠ 0 := by
    rintro rfl
    exact hpid (hi.symm.trans h.run.pid_zero)
  have hlive : (a.pcb i).status ≠ .none := fun hs =>
    hpid (hi.symm.trans ((h.run.pid_live i h0).mp hs))
  exact hnone i ((h.recorded i pid).mpr ⟨h0, hlive, hi⟩)

/-- `do_kill(0)` finds PCB 0 and takes it out of no queue. -/
theorem Inv.doKill_zero (h : s.Inv a) : s.kernel.doKill 0 = .error .null := by
  have hfind : s.kernel.toCore.findPid 0 = some 0 := by
    rw [h.follows.core]
    simp [Core.findPid, numMaxTask, List.finRange_succ, h.run.pid_zero]
  obtain ⟨_, hrun, hqueue⟩ := h.run.parked
  have hpcb : s.kernel.pcb 0 = a.pcb 0 := by rw [h.follows.core]
  rw [← hpcb] at hrun hqueue
  have hleft : ((s.kernel.setPcb 0 { s.kernel.pcb 0 with status := .exited }).pcb 0).inQueue =
      none := by simpa [Kernel.setPcb] using hqueue
  simp only [Kernel.doKill, hfind, if_neg hrun, hleft]

end Step

/-- In every state that is reached from boot, a pid that no process has is
rejected by `do_kill` and by `do_waitpid` exactly when it is not 0. -/
theorem pid_rejected_iff (barrier : BarrierId → Barrier) (tables : Nat → Nat → Nat)
    {s : ProcSystem} (h : Reaches ProcSystem.step EventOk (boot barrier tables) s) {pid : Int}
    (hnone : s.NoProcess pid) : s.Rejects pid ↔ pid ≠ 0 := by
  obtain ⟨a, hinv⟩ := h.invariant (fun s => ∃ a, s.Inv a) ⟨_, inv_boot barrier tables⟩ (by
    intro s e s' ha hok hstep
    obtain ⟨a, hinv⟩ := ha
    exact hinv.step hok hstep)
  constructor
  · rintro ⟨hkill, _⟩ rfl
    rw [hinv.doKill_zero] at hkill
    cases hkill
  · intro hpid
    have hfind := hinv.findPid hnone hpid
    refine ⟨by simp only [Kernel.doKill, hfind], fun sp => ?_⟩
    simp [Kernel.doWaitpid, hfind]

/-- The system over cleared tables. -/
def blank : ProcSystem := boot (fun _ => { goal := 1, now := 0 }) fun _ _ => 0

/-- After the first of two processes has been killed, its pid is rejected. -/
theorem blank_killed_pid_rejected :
    ∃ s, runIf ProcSystem.step EventOk blank [⟨0, .spawn 0⟩, ⟨0, .spawn 0⟩, ⟨0, .kill 1⟩] =
        some s ∧ s.NoProcess 1 ∧ s.Rejects 1 := by
  have hrun : (runIf ProcSystem.step EventOk blank
      [⟨0, .spawn 0⟩, ⟨0, .spawn 0⟩, ⟨0, .kill 1⟩]).map
        (fun s => decide (s.NoProcess 1)) = some true := by
    decide +kernel
  obtain ⟨s, hs, hgone⟩ := Option.map_eq_some_iff.mp hrun
  have hnone : s.NoProcess 1 := of_decide_eq_true hgone
  exact ⟨s, hs, hnone, (pid_rejected_iff _ _ (reaches_of_runIf hs) hnone).mpr (by decide)⟩

/-- Before anything is spawned, no process has pid 0, and `do_kill(0)` does not
reject it. -/
theorem blank_pid_zero_accepted :
    ¬ ∀ (s : ProcSystem) (pid : Int), Reaches ProcSystem.step EventOk blank s →
      s.NoProcess pid → s.Rejects pid := by
  intro hall
  have hkill := (hall blank 0 (.refl _) fun i hi => by cases hi).1
  have hfault : (blank.kernel.doKill 0).toOption.isSome = false := by decide +kernel
  rw [hkill] at hfault
  cases hfault

end ProcSystem

end MipsOs.Sched
