import MipsOs.Sched.BootTask
import MipsOs.Sched.PageTables

/-!
# The dead do not run again

A process ends when it calls `do_exit`, when another process kills it, or at
the first `scheduler()` after it has killed itself.  Its PCB is used again, and
its pid is not: `next_pid` has passed it, and no PCB carries it any more.

`Dead` is that invariant.  `dead_never_run` is the result: the pid of a process
that ended is never the pid of `current_running` again and is not given out by
`do_spawn`.
-/

namespace MipsOs.Sched

open MipsOs.Lib

/-- The call is a page fault. -/
def Call.isPageFault : Call → Bool
  | .pageFault _ => true
  | _ => false

/-- What a call may be.  The boot code does not wait, and a process that killed
itself gets to `irq_timer` by every exception but a page fault. -/
def LifeOk (c : Core) (e : Event) : Prop :=
  BootOk c e ∧ ((c.pcb c.currentRunning).status = .exited →
    e.call.isSwitch = true ∨ e.call.isPageFault = true)

instance (c : Core) (e : Event) : Decidable (LifeOk c e) :=
  inferInstanceAs (Decidable (_ ∧ _))

/-- A call that ends the process `pid`: it exits, it is killed while it does not
run, or it has killed itself and the scheduler is called. -/
inductive Ends (c : Core) (pid : Int) : Call → Prop where
  | exit (hpid : (c.pcb c.currentRunning).pid = pid) : Ends c pid .exit
  | kill {i : Task} (hfind : c.findPid pid = some i) (hother : i ≠ c.currentRunning) :
      Ends c pid (.kill pid)
  | schedule {call : Call} (hpid : (c.pcb c.currentRunning).pid = pid)
      (hexited : (c.pcb c.currentRunning).status = .exited)
      (hsched : c.schedules call = true) : Ends c pid call

/-- The pid has been given out, and no process has it. -/
structure Dead (pid : Int) (k : Kernel ListQueues) : Prop where
  nonneg : 0 ≤ pid
  given : pid < k.nextPid
  gone : ∀ i, i ≠ 0 → (k.pcb i).pid = pid → (k.pcb i).status = .none
  running : pid = 0 → k.currentRunning ≠ 0

/-- Pids are natural numbers. -/
def PidsNonneg (k : Kernel ListQueues) : Prop := ∀ i, i ≠ 0 → 0 ≤ (k.pcb i).pid

section Moves

variable {c : Core} {call : Call} {a b k k' : Kernel ListQueues} {e : Event} {pid : Int}

theorem PidsNonneg.move (h : PidsNonneg a) (hcons : Consistent (c.dying call) a)
    (hmove : Move c call a b) : PidsNonneg b := by
  intro j hj
  rcases hmove.lives_cases hcons with hsame | ⟨i, _, _, _, rfl⟩ | ⟨i, argc, hoff, _, _, _, rfl⟩
  · rw [(hsame j hj).1]
    exact h j hj
  · by_cases hji : j = i
    · subst hji
      simp [Kernel.freePcb]
    · rw [Kernel.freePcb, Kernel.setPcb_pcb_of_ne hji]
      exact h j hj
  · by_cases hji : j = i
    · subst hji
      rw [Kernel.spawned_pcb_self]
      exact le_of_lt hcons.nextPid_pos
    · rw [Kernel.spawned_pcb_of_ne hoff hji]
      exact h j hj

/-- After the boot code has been left, it does not run again. -/
theorem Move.current_ne_zero (hmove : Move c call a b) (hparked : Parked a)
    (h : a.currentRunning ≠ 0) : b.currentRunning ≠ 0 := by
  cases hmove with
  | aside hpcb hqueues hcur hpid hnext hmm => rw [hcur]; exact h
  | dispatch hi =>
    rintro hzero
    obtain rfl := hzero
    rw [hparked.1] at hi
    cases hi
  | _ => exact h

/-- The invariant of a kernel whose pids are natural numbers. -/
structure LifeInv (k : Kernel ListQueues) : Prop extends BootInv k where
  nonneg : PidsNonneg k

theorem LifeInv.step (h : LifeInv k) (hok : BootOk k.toCore e) :
    Safe (kernelStep k e) fun k' => LifeInv k' ∧ Moves k.toCore e.call k k' := by
  apply (h.toBootInv.step hok).mono
  intro k' hk'
  obtain ⟨hinv, hmoves⟩ := hk'
  have hnonneg := hmoves.invariant PidsNonneg h.nonneg fun _ _ hcons hmove ha =>
    ha.move hcons hmove
  exact ⟨⟨hinv, hnonneg⟩, hmoves⟩

/-- A pid that no process has is not used again. -/
theorem Dead.moves (h : Dead pid k) (hinv : LifeInv k) (hok : BootOk k.toCore e)
    (hmoves : Moves k.toCore e.call k k') : Dead pid k' where
  nonneg := h.nonneg
  given := lt_of_lt_of_le h.given hmoves.nextPid_le
  gone := by
    intro i hi hpid
    by_contra hlive'
    by_cases hlive : (k.pcb i).status = .none
    · obtain ⟨_, _, hborn, _⟩ := hmoves.lifecycle.born i hi hlive hlive'
      have hgiven := h.given
      omega
    · have hkept := (hmoves.lifecycle.kept i hi hlive hlive').1
      exact hlive (h.gone i hi (hkept.symm.trans hpid))
  running := by
    intro hzero
    have hkeeps := hmoves.invariant (fun k => Parked k ∧ k.currentRunning ≠ 0)
      ⟨hinv.parked, h.running hzero⟩ fun a b _ hmove ha =>
        ⟨hmove.parked hok ha.1, hmove.current_ne_zero ha.1 ha.2⟩
    exact hkeeps.2

/-- The process that a call ends is the one that is freed. -/
theorem Ends.dying (h : Ends k.toCore pid call) (hinv : BootInv k)
    (hkill : call ≠ .kill 0) (hexit : k.cur.status = .exited →
      call.isSwitch = true ∨ call.isPageFault = true) :
    ∃ i, k.toCore.dying call = some i ∧ (k.pcb i).pid = pid := by
  cases h with
  | exit hpid => exact ⟨k.currentRunning, rfl, hpid⟩
  | @kill i hfind hother =>
    have hpid := Core.findPid_eq_some hfind
    have hrun : (k.pcb i).status ≠ .running := by
      intro hrun
      by_cases hi : i = 0
      · subst hi
        rw [hinv.pid_zero] at hpid
        exact hkill (congrArg Call.kill hpid.symm)
      · exact hother (hinv.running i hi hrun)
    exact ⟨i, Core.dying_kill_other hfind hrun, hpid⟩
  | schedule hpid hexited hsched =>
    refine ⟨k.currentRunning, ?_, hpid⟩
    rcases hexit hexited with hswitch | hfault
    · exact marked_switch hswitch hexited
    · cases call with
      | pageFault addr => cases hsched
      | _ => cases hfault

/-- The scheduler leaves a task that runs. -/
theorem current_runs (hsched : k.toCore.schedules e.call = true)
    (hsafe : Safe (kernelStep k e) fun _ => True) :
    Safe (kernelStep k e) fun k' => k'.cur.status = .running := by
  rw [kernelStep_eq_untilDequeue k e hsched] at hsafe ⊢
  cases hcall : untilDequeue k e with
  | error f =>
    rw [hcall] at hsafe
    cases f <;> exact hsafe
  | ok k₁ =>
    apply Kernel.dispatch_rule
    intro i rest hitems
    exact congrArg Pcb.status (Kernel.dispatched_pcb_self (Lists.owner_of_cons hitems))

/-- A call that ends a process leaves its pid to nobody. -/
theorem Ends.dead (h : Ends k.toCore pid e.call) (hinv : LifeInv k)
    (hok : LifeOk k.toCore e) : Safe (kernelStep k e) (Dead pid) := by
  by_cases hkill : e.call = .kill 0
  · rw [hinv.kill_zero hkill]
    trivial
  obtain ⟨d, hdying, hpid⟩ := h.dying hinv.toBootInv hkill hok.2
  have hruns : Safe (kernelStep k e) fun k' => pid = 0 → k'.cur.status = .running := by
    have hstep : Safe (kernelStep k e) fun _ => True :=
      (hinv.step hok.1).mono fun _ _ => trivial
    by_cases hzero : pid = 0
    · subst hzero
      have hsched : k.toCore.schedules e.call = true := by
        generalize e.call = call at h hkill
        cases h with
        | exit hpid => rfl
        | kill hfind hother => exact absurd rfl hkill
        | schedule hpid hexited hsched => exact hsched
      exact (current_runs hsched hstep).mono fun _ hrun _ => hrun
    · exact hstep.mono fun _ _ hp => absurd hp hzero
  apply (((hinv.step hok.1).and (hinv.dying_freed hkill hdying)).and hruns).mono
  intro k' hk'
  obtain ⟨⟨⟨hinv', hmoves⟩, hfreed⟩, hrun⟩ := hk'
  have hlt := hinv.pid_lt d
  have hle := hmoves.nextPid_le
  refine ⟨?_, by omega, fun i hi hpid' => ?_, fun hzero hcur => ?_⟩
  · rw [← hpid]
    by_cases hd : d = 0
    · subst hd
      exact le_of_eq hinv.pid_zero.symm
    · exact hinv.nonneg d hd
  · by_contra hlive'
    by_cases hlive : (k.pcb i).status = .none
    · obtain ⟨_, _, hborn, _⟩ := hmoves.lifecycle.born i hi hlive hlive'
      omega
    · have hkept := (hmoves.lifecycle.kept i hi hlive hlive').1
      have hsame : (k.pcb i).pid = (k.pcb d).pid := by omega
      obtain rfl := hinv.pid_inj i d hsame fun hz => hlive ((hinv.pid_live i hi).mpr hz)
      exact hlive' hfreed
  · apply hinv'.parked.2.1
    rw [← hcur]
    exact hrun hzero

/-- Neither the running process nor the next one has a dead pid. -/
theorem Dead.not_running (h : Dead pid k) (hinv : SchedInv k) : k.cur.pid ≠ pid := by
  intro hpid
  by_cases hcur : k.currentRunning = 0
  · apply h.running _ hcur
    rw [← hpid, Kernel.cur, hcur]
    exact hinv.pid_zero
  · exact hinv.current_live hcur (h.gone _ hcur hpid)

end Moves

/-! ## Runs -/

section Pointers

variable {a : Kernel ListQueues} {k k' k'' : Kernel PtrQueues} {e : Event} {pid : Int}

theorem bootLists_lifeInv (barrier : BarrierId → Barrier) (tables : Nat → Nat → Nat) :
    LifeInv (bootLists barrier tables) where
  toBootInv := bootLists_bootInv barrier tables
  nonneg := by
    intro i hi
    show 0 ≤ ((bootCore barrier tables).pcb i).pid
    simp [bootCore, bootPcb, hi]

theorem LifeInv.follow (h : LifeInv a) (hfollows : Follows a k) (hok : BootOk k.toCore e)
    (hstep : kernelRun k e = some k') :
    ∃ a', Follows a' k' ∧ LifeInv a' ∧ kernelStep a e = .ok a' ∧
      Moves a.toCore e.call a a' := by
  rw [hfollows.core] at hok
  obtain ⟨a', ha', hfollows', hinv', hmoves⟩ := (kernelStep_sim hfollows e).of_ok (h.step hok)
    (kernelRun_eq_some.mp hstep)
  exact ⟨a', hfollows', hinv', ha', hmoves⟩

theorem reaches_lifeInv (barrier : BarrierId → Barrier) (tables : Nat → Nat → Nat)
    (h : Reaches kernelRun (fun k e => LifeOk k.toCore e) (bootKernel barrier tables) k) :
    ∃ a, Follows a k ∧ LifeInv a := by
  apply h.invariant (fun k => ∃ a, Follows a k ∧ LifeInv a)
  · exact ⟨_, bootLists_follows barrier tables, bootLists_lifeInv barrier tables⟩
  · intro k e k' hinv hok hstep
    obtain ⟨a, hfollows, hinv⟩ := hinv
    obtain ⟨a', hfollows', hinv', _⟩ := hinv.follow hfollows hok.1 hstep
    exact ⟨a', hfollows', hinv'⟩

/-- `do_spawn` answers -1 or the next pid. -/
theorem doSpawn_pid {argc : Nat} {answer : Int} (h : k.doSpawn argc = .ok (answer, k')) :
    answer = -1 ∨ answer = k.nextPid := by
  unfold Kernel.doSpawn at h
  split at h
  · exact Or.inl (congrArg Prod.fst (Except.ok.inj h)).symm
  · dsimp only at h
    split at h
    · obtain ⟨k₁, _, hk₁⟩ := bind_eq_ok.mp h
      exact Or.inr (congrArg Prod.fst (Except.ok.inj hk₁)).symm
    · cases h

/-- In every run from boot, once a call that ends the process `pid` has
completed, `pid` is not the pid of `current_running` in any later state, and
`do_spawn` does not return it. -/
theorem dead_never_run (barrier : BarrierId → Barrier) (tables : Nat → Nat → Nat)
    (h : Reaches kernelRun (fun k e => LifeOk k.toCore e) (bootKernel barrier tables) k)
    (hok : LifeOk k.toCore e) (hends : Ends k.toCore pid e.call)
    (hstep : kernelRun k e = some k')
    (hcont : Reaches kernelRun (fun k e => LifeOk k.toCore e) k' k'') :
    k''.cur.pid ≠ pid ∧
      ∀ argc answer k₃, k''.doSpawn argc = .ok (answer, k₃) → answer ≠ pid := by
  obtain ⟨a, hfollows, hinv⟩ := reaches_lifeInv barrier tables h
  obtain ⟨a', hfollows', hinv', ha', _⟩ := hinv.follow hfollows hok.1 hstep
  rw [hfollows.core] at hok hends
  have hdead := (hends.dead hinv hok).of_ok ha'
  obtain ⟨a'', hfollows'', hinv'', hdead''⟩ := hcont.invariant
    (fun k => ∃ a, Follows a k ∧ LifeInv a ∧ Dead pid a) ⟨a', hfollows', hinv', hdead⟩ (by
      intro k₁ e k₂ hk₁ hok hstep
      obtain ⟨a₁, hfollows₁, hinv₁, hdead₁⟩ := hk₁
      obtain ⟨a₂, hfollows₂, hinv₂, _, hmoves⟩ := hinv₁.follow hfollows₁ hok.1 hstep
      rw [hfollows₁.core] at hok
      exact ⟨a₂, hfollows₂, hinv₂, hdead₁.moves hinv₁ hok.1 hmoves⟩)
  constructor
  · rw [Kernel.cur, hfollows''.core]
    exact hdead''.not_running hinv''.toSchedInv
  · intro argc answer k₃ hspawn
    have hgiven := hdead''.given
    have hnonneg := hdead''.nonneg
    rcases doSpawn_pid hspawn with rfl | rfl
    · omega
    · rw [hfollows''.core]
      exact ne_of_gt hgiven

/-- The shell kills itself, and the next timer interrupt switches to the second
process. -/
theorem blank_suicide_never_runs :
    ∃ k k', runIf kernelRun (fun k e => LifeOk k.toCore e) blankKernel
        [⟨0, .spawn 0⟩, ⟨0, .spawn 0⟩, ⟨0, .yield⟩, ⟨0, .kill 1⟩] = some k ∧
      kernelRun k ⟨0, .timer 5⟩ = some k' ∧ k'.cur.pid ≠ 1 ∧
      ∀ argc answer k₃, k'.doSpawn argc = .ok (answer, k₃) → answer ≠ 1 := by
  have hrun : (runIf kernelRun (fun k e => LifeOk k.toCore e) blankKernel
      [⟨0, .spawn 0⟩, ⟨0, .spawn 0⟩, ⟨0, .yield⟩, ⟨0, .kill 1⟩]).map
        (fun k => (k.cur.pid, k.cur.status, (kernelRun k ⟨0, .timer 5⟩).isSome)) =
      some (1, .exited, true) := by
    decide +kernel
  obtain ⟨k, hk, hpair⟩ := Option.map_eq_some_iff.mp hrun
  obtain ⟨hpid, hrest⟩ := Prod.mk.inj hpair
  obtain ⟨hexited, hnext⟩ := Prod.mk.inj hrest
  obtain ⟨k', hk'⟩ := Option.isSome_iff_exists.mp hnext
  have hok : LifeOk k.toCore ⟨0, .timer 5⟩ := ⟨fun _ => rfl, fun _ => Or.inl rfl⟩
  exact ⟨k, k', hk, hk', dead_never_run _ _ (reaches_of_runIf hk) hok
    (.schedule hpid hexited rfl) hk' (.refl k')⟩

end Pointers

end MipsOs.Sched
