import MipsOs.Sched.Moves

/-!
# Waiting for a process

`do_waitpid` puts the running task into `waitpid_queue` with the pid it waits
for, and `free_proc` wakes everybody who waits for the pid of the process it
frees.

A pid and a PCB do not name a process for ever, because PCBs are used again.
`WaitSystem` runs the pointer kernel beside two records: how often each PCB
has been given to a new process, and which process a call of `do_waitpid`
found.  `waitpid_never_orphaned` is the result: whoever waits, waits for a
process that has not been freed, which is the process found by the call, and
the step that frees a process wakes those who wait for it and nobody else.
-/

namespace MipsOs.Sched

open MipsOs.Lib

/-- A process: a PCB, and how many processes have used it. -/
abbrev ProcessId := Task × Nat

/-- The pointer kernel, how many processes have used each PCB, and for which process each
task has last called `do_waitpid`. -/
structure WaitSystem where
  kernel : Kernel PtrQueues
  birth : Task → Nat
  target : Task → Option ProcessId

namespace WaitSystem

/-- The PCBs that have been used once more. -/
def birthAfter (s : WaitSystem) : Call → Task → Nat
  | .spawn _ =>
    match s.kernel.toCore.allocPcb with
    | none => s.birth
    | some i => Function.update s.birth i (s.birth i + 1)
  | _ => s.birth

/-- The process that a call of `do_waitpid` found. -/
def targetAfter (s : WaitSystem) : Call → Task → Option ProcessId
  | .waitpid pid =>
    Function.update s.target s.kernel.currentRunning
      ((s.kernel.toCore.findPid pid).map fun j => (j, s.birth j))
  | _ => s.target

/-- One event, with the two records. -/
def step (s : WaitSystem) (e : Event) : Option WaitSystem :=
  (kernelRun s.kernel e).map fun k =>
    { kernel := k, birth := s.birthAfter e.call, target := s.targetAfter e.call }

/-- Pid 0 is neither killed nor waited for. -/
def EventOk (_ : WaitSystem) (e : Event) : Prop :=
  e.call ≠ .kill 0 ∧ e.call ≠ .waitpid 0

instance (s : WaitSystem) (e : Event) : Decidable (s.EventOk e) :=
  inferInstanceAs (Decidable (_ ∧ _))

/-- The system after initialisation. -/
def boot (barrier : BarrierId → Barrier) (tables : Nat → Nat → Nat) : WaitSystem where
  kernel := bootKernel barrier tables
  birth := fun _ => 0
  target := fun _ => none

end WaitSystem

/-! ## One event -/

section Moves

variable {k₀ k a b : Kernel ListQueues} {call : Call}

/-- Everybody who waits, waits for a process that is alive. -/
def Targets (k : Kernel ListQueues) : Prop :=
  ∀ w, k.queues.owner w = some .waitpid →
    ∃ j, j ≠ 0 ∧ (k.pcb j).status ≠ .none ∧ (k.pcb j).pid = (k.pcb w).waitpid

/-- A process that a pid other than 0 finds. -/
theorem Consistent.findPid {d : Option Task} (h : Consistent d k) {pid : Int} (hpid : pid ≠ 0)
    (hfind : (k.toCore.findPid pid).isSome = true) :
    ∃ j, j ≠ 0 ∧ (k.pcb j).status ≠ .none ∧ (k.pcb j).pid = pid := by
  obtain ⟨j, hj⟩ := Option.isSome_iff_exists.mp hfind
  have hjpid := Core.findPid_eq_some hj
  have hj0 : j ≠ 0 := by
    rintro rfl
    exact hpid (hjpid.symm.trans h.pid_zero)
  refine ⟨j, hj0, fun hs => hpid ?_, hjpid⟩
  exact hjpid.symm.trans ((h.pid_live j hj0).mp hs)

theorem Targets.move {c : Core} (h : Targets a) (hcons : Consistent (c.dying call) a)
    (hmove : Move c call a b) (hcall : call ≠ .waitpid 0) : Targets b := by
  have hkeep : ∀ {w j : Task}, j ≠ 0 → (a.pcb j).status ≠ .none →
      (a.pcb j).pid = (b.pcb w).waitpid →
      (∀ i, c.dying call = some i →
        (∀ w, a.queues.owner w = some .waitpid → (a.pcb w).waitpid ≠ (a.pcb i).pid) → j ≠ i) →
      ∃ j, j ≠ 0 ∧ (b.pcb j).status ≠ .none ∧ (b.pcb j).pid = (b.pcb w).waitpid := by
    intro w j hj0 hlive hpid hstay
    refine ⟨j, hj0, ?_⟩
    rcases hmove.lives_cases hcons with hsame | ⟨i, hdying, _, hwaiters, rfl⟩ |
      ⟨i, argc, hoff, _, _, halloc, rfl⟩
    · obtain ⟨hjpid, _, hs⟩ := hsame j hj0
      exact ⟨fun hn => hlive (hs.mp hn), hjpid.trans hpid⟩
    · have hj : (a.freePcb i).pcb j = a.pcb j :=
        Kernel.setPcb_pcb_of_ne (hstay i hdying hwaiters) _
      rw [hj]
      exact ⟨hlive, hpid⟩
    · have hji : j ≠ i := by
        rintro rfl
        exact hlive (Core.allocPcb_eq_some halloc).2
      rw [Kernel.spawned_pcb_of_ne hoff hji]
      exact ⟨hlive, hpid⟩
  intro w hw
  rcases hmove.waits (by decide) hw with ⟨hw', hwait⟩ | ⟨_, hjoins, hpid⟩
  · obtain ⟨j, hj0, hlive, htarget⟩ := h w hw'
    refine hkeep hj0 hlive (htarget.trans hwait.symm) ?_
    rintro i _ hwaiters rfl
    exact hwaiters w hw' htarget.symm
  · obtain ⟨pid, rfl⟩ := Call.eq_waitpid_of_joins hjoins
    obtain ⟨hwait, hfind⟩ := hpid pid rfl
    have hpid0 : pid ≠ 0 := by
      rintro rfl
      exact hcall rfl
    obtain ⟨j, hj0, hlive, hjpid⟩ := hcons.findPid hpid0 hfind
    exact hkeep hj0 hlive (hjpid.trans hwait.symm) (by rintro i ⟨⟩)

/-- Whoever waited still waits, or goes on because the process it waited for
dies. -/
def Woken (call : Call) (k₀ k : Kernel ListQueues) : Prop :=
  ∀ w, k₀.queues.owner w = some .waitpid → k₀.toCore.dying call ≠ some w →
    (k.queues.owner w = some .waitpid ∧ (k.pcb w).waitpid = (k₀.pcb w).waitpid) ∨
      (∃ d, k₀.toCore.dying call = some d ∧ (k₀.pcb w).waitpid = (k₀.pcb d).pid) ∧
        (k.queues.owner w = some .ready ∨ (k.pcb w).status = .running)

/-- The process that dies has kept its pid. -/
theorem Lifecycle.dying_pid (h : Lifecycle k₀.toCore call k₀ a) {d : Task}
    (hinv : SchedInv k₀) (hcons : Consistent (k₀.toCore.dying call) a)
    (hdying : k₀.toCore.dying call = some d) (hex : (a.pcb d).status = .exited) :
    (a.pcb d).pid = (k₀.pcb d).pid := by
  by_cases hd0 : d = 0
  · subst hd0
    rw [hcons.pid_zero, hinv.pid_zero]
  · have hlive : (a.pcb d).status ≠ .none := by
      rw [hex]
      decide
    refine (h.kept d hd0 (fun hnone => ?_) hlive).1
    obtain ⟨⟨argc, rfl⟩, _⟩ := h.born d hd0 hnone hlive
    cases hdying

theorem Woken.move (h : Woken call k₀ a) (hinv : SchedInv k₀)
    (hlives : Lifecycle k₀.toCore call k₀ a) (hcons : Consistent (k₀.toCore.dying call) a)
    (hmove : Move k₀.toCore call a b) : Woken call k₀ b := by
  intro w hw hd
  have hcur : w ≠ k₀.currentRunning := by
    rintro rfl
    rw [hinv.owner_current] at hw
    cases hw
  rcases h w hw hd with ⟨hstay, hwait⟩ | ⟨hreason, hready | hrun⟩
  · rcases hmove.leaves hstay with ⟨hstay', hwait'⟩ | ⟨hready, hdue⟩ | ⟨hq, _⟩ | hdying
    · exact Or.inl ⟨hstay', hwait'.trans hwait⟩
    · obtain ⟨d, hdying, hex, hpid⟩ := hdue rfl
      refine Or.inr ⟨⟨d, hdying, ?_⟩, Or.inl hready⟩
      rw [← hwait, hpid]
      exact hlives.dying_pid hinv hcons hdying hex
    · cases hq
    · exact absurd hdying hd
  · rcases hmove.leaves hready with ⟨hready', _⟩ | ⟨hready', _⟩ | ⟨_, _, hrun⟩ | hdying
    · exact Or.inr ⟨hreason, Or.inl hready'⟩
    · exact Or.inr ⟨hreason, Or.inl hready'⟩
    · exact Or.inr ⟨hreason, Or.inr hrun⟩
    · exact absurd hdying hd
  · rcases hmove.running hcons hrun hcur with hrun' | hready
    · exact Or.inr ⟨hreason, Or.inr hrun'⟩
    · exact Or.inr ⟨hreason, Or.inl hready⟩

theorem Moves.targets (h : Moves k₀.toCore call k₀ k) (hcall : call ≠ .waitpid 0)
    (htargets : Targets k₀) : Targets k :=
  h.invariant Targets htargets fun _ _ hcons hmove ha => ha.move hcons hmove hcall

theorem Moves.woken (h : Moves k₀.toCore call k₀ k) (hinv : SchedInv k₀) : Woken call k₀ k :=
  (h.invariant (fun k => Lifecycle k₀.toCore call k₀ k ∧ Woken call k₀ k)
    ⟨.refl _ _ _, fun _ hw _ => Or.inl ⟨hw, rfl⟩⟩ fun _ _ hcons hmove ha =>
      ⟨ha.1.move hcons hmove, ha.2.move hinv ha.1 hcons hmove⟩).2

/-- A process that is freed has nobody left who waits for it, and only those
who waited for it go on. -/
theorem Moves.freed (h : Moves k₀.toCore call k₀ k) (hinv₀ : SchedInv k₀)
    (hcall : call ≠ .waitpid 0) (htargets : Targets k₀) {d w : Task} (hd0 : d ≠ 0)
    (hlive : (k₀.pcb d).status ≠ .none) (hfreed : (k.pcb d).status = .none)
    (hw : k₀.queues.owner w = some .waitpid) (hwd : w ≠ d) :
    ((k₀.pcb w).waitpid = (k₀.pcb d).pid ∧
        (k.queues.owner w = some .ready ∨ (k.pcb w).status = .running)) ∨
      (k₀.pcb w).waitpid ≠ (k₀.pcb d).pid ∧ k.queues.owner w = some .waitpid := by
  have hlives := h.lifecycle
  have hdying : k₀.toCore.dying call = some d := by
    by_contra hne
    exact hlives.living d hd0 hlive hne hfreed
  have hwd' : k₀.toCore.dying call ≠ some w := by
    rw [hdying]
    exact fun heq => hwd (Option.some.inj heq).symm
  rcases h.woken hinv₀ w hw hwd' with ⟨hstay, hwait⟩ | ⟨⟨d', hd', hpid⟩, hgo⟩
  · refine Or.inr ⟨fun hpid => ?_, hstay⟩
    obtain ⟨j, hj0, hjlive, hjpid⟩ := h.targets hcall htargets w hstay
    have hne : d ≠ j := by
      rintro rfl
      exact hjlive hfreed
    have hjlive₀ : (k₀.pcb j).status ≠ .none := by
      intro hnone
      obtain ⟨⟨argc, rfl⟩, _⟩ := hlives.born j hj0 hnone hjlive
      cases hdying
    have hjpid₀ := (hlives.kept j hj0 hjlive₀ hjlive).1
    have hdpid : (k₀.pcb d).pid ≠ 0 := fun hz => hlive ((hinv₀.pid_live d hd0).mpr hz)
    refine hne (hinv₀.pid_inj d j ?_ hdpid)
    rw [← hpid, ← hwait, ← hjpid, hjpid₀]
  · obtain rfl : d' = d := Option.some.inj (hd'.symm.trans hdying)
    exact Or.inl ⟨hpid, hgo⟩

end Moves

/-! ## `free_proc` -/

section FreeProc

variable {k : Kernel ListQueues} {i : Task}

/-- What the release of the locks does to the queues: those who get a lock are
ready, and those who wait for a process stay as they are. -/
structure Granted (k₀ k : Kernel ListQueues) : Prop where
  waiting : k.queues.items .waitpid = k₀.queues.items .waitpid
  waitpid : ∀ w, (k.pcb w).waitpid = (k₀.pcb w).waitpid
  blocked : ∀ w b, k.queues.owner w = some (.block b) → k₀.queues.owner w = some (.block b)
  ready : ∃ got, k.queues.items .ready = k₀.queues.items .ready ++ got ∧
    ∀ w ∈ got, ∃ b, w ∈ k₀.queues.items (.block b)

theorem Granted.lockwise (k₀ : Kernel ListQueues) : Lockwise (Granted k₀) where
  locks k j g h := by
    refine ⟨h.waiting, fun w => ?_, h.blocked, h.ready⟩
    rw [← h.waitpid w]
    by_cases hw : w = j
    · subst hw
      rw [Kernel.setPcb_pcb_self]
    · rw [Kernel.setPcb_pcb_of_ne hw]
  lock k l s h := ⟨h.waiting, h.waitpid, h.blocked, h.ready⟩
  unblocked k b j hj h := by
    obtain ⟨got, hready, hgot⟩ := h.ready
    refine ⟨?_, fun w => ?_, fun w b' hw => ?_, got ++ [j], ?_, fun w hw => ?_⟩
    · rw [Kernel.woken_items_of_ne hj (by simp) (by simp)]
      exact h.waiting
    · rw [← h.waitpid w]
      by_cases hwj : w = j
      · subst hwj
        rw [Kernel.woken_pcb_self]
      · rw [Kernel.woken_pcb_of_ne hj hwj]
    · rw [Kernel.woken_owner] at hw
      by_cases hwj : w = j
      · rw [if_pos hwj] at hw
        cases hw
      · rw [if_neg hwj] at hw
        exact h.blocked w b' hw
    · rw [Kernel.woken, Kernel.enqueued_items, if_pos rfl, Kernel.taken_items,
        if_neg (by simp), hready, List.append_assoc]
    · rcases List.mem_append.mp hw with hw | hw
      · exact hgot w hw
      · obtain rfl := List.mem_singleton.mp hw
        exact ⟨b, (k₀.queues.mem_iff _ _).mpr (h.blocked w b hj)⟩

/-- `free_proc` moves those who wait for the process, and no other waiter, to
the end of the ready queue, behind those who get one of its locks. -/
theorem freeProc_waiters (k : Kernel ListQueues) (i : Task) :
    Safe (k.freeProc i) fun k' =>
      k'.queues.items .waitpid =
        (k.queues.items .waitpid).filter (fun w => (k.pcb w).waitpid ≠ (k.pcb i).pid) ∧
      ∃ got, k'.queues.items .ready = k.queues.items .ready ++ got ++
          (k.queues.items .waitpid).filter (fun w => (k.pcb w).waitpid = (k.pcb i).pid) ∧
        ∀ w ∈ got, ∃ b, w ∈ k.queues.items (.block b) := by
  simp only [Kernel.freeProc]
  split
  · trivial
  · have hself : Granted k { k with toCore := k.toCore.freeMemory i } :=
      ⟨rfl, fun _ => rfl, fun _ _ h => h, [], by simp, by simp⟩
    refine ((Granted.lockwise k).releaseLocks hself i _).bind fun k₁ h₁ => ?_
    obtain ⟨got, hready, hgot⟩ := h₁.ready
    have hwake : Safe (k₁.wakeWaiting (k.pcb i).pid) fun k₂ =>
        k₂.queues.items .waitpid = (k₁.queues.items .waitpid).filter
          (fun w => !decide ((k₁.pcb w).waitpid = (k.pcb i).pid)) ∧
        k₂.queues.items .ready = k₁.queues.items .ready ++ (k₁.queues.items .waitpid).filter
          (fun w => decide ((k₁.pcb w).waitpid = (k.pcb i).pid)) := by
      simp only [Kernel.wakeWaiting]
      split
      · rename_i hempty
        have hnil : k₁.queues.items .waitpid = [] := List.isEmpty_iff.mp hempty
        simp only [Safe, hnil, List.filter_nil, List.append_nil, and_self]
      · exact (Kernel.wakeAll_splits (P := fun _ => True) (by decide)
          (fun _ _ _ _ _ => trivial) trivial).mono fun k' h => ⟨h.2.1, h.2.2.1⟩
    refine hwake.bind ?_
    rintro k₂ ⟨hleft, hready₂⟩
    refine ⟨?_, got, ?_, hgot⟩
    · refine hleft.trans ?_
      rw [h₁.waiting]
      refine List.filter_congr fun w _ => ?_
      rw [h₁.waitpid]
      simp
    · refine hready₂.trans ?_
      rw [hready, h₁.waiting]
      congr 1
      refine List.filter_congr fun w _ => ?_
      rw [h₁.waitpid]

end FreeProc

/-! ## Runs -/

namespace WaitSystem

variable {s s' : WaitSystem} {e : Event}

/-- Whoever waits, waits for the process that the call found, which has not
been freed. -/
def Attends (s : WaitSystem) (L : Lists QueueId Task) : Prop :=
  ∀ w ∈ L.items .waitpid, ∃ j, (s.kernel.pcb j).status ≠ .none ∧
    (s.kernel.pcb j).pid = (s.kernel.pcb w).waitpid ∧ s.target w = some (j, s.birth j)

/-- Everybody who waited for a process that the step freed is ready, or has
been dispatched by the `scheduler` of the same step, and everybody who waited
for another process still waits. -/
def WakesWaiters (s s' : WaitSystem) (L L' : Lists QueueId Task) : Prop :=
  ∀ d, d ≠ 0 → (s.kernel.pcb d).status ≠ .none → (s'.kernel.pcb d).status = .none →
    ∀ w ∈ L.items .waitpid, w ≠ d →
      if (s.kernel.pcb w).waitpid = (s.kernel.pcb d).pid then
        w ∈ L'.items .ready ∨ (s'.kernel.pcb w).status = .running
      else
        w ∈ L'.items .waitpid

/-- The kernel follows a list kernel in which every waiting task waits for a process that
lives. -/
structure Inv (s : WaitSystem) (a : Kernel ListQueues) : Prop where
  follows : Follows a s.kernel
  run : RunInv a
  attends : ∀ w, a.queues.owner w = some .waitpid → ∃ j, j ≠ 0 ∧ (a.pcb j).status ≠ .none ∧
    (a.pcb j).pid = (a.pcb w).waitpid ∧ s.target w = some (j, s.birth j)

theorem inv_boot (barrier : BarrierId → Barrier) (tables : Nat → Nat → Nat) :
    (boot barrier tables).Inv (bootLists barrier tables) where
  follows := bootLists_follows barrier tables
  run := bootLists_runInv barrier tables
  attends := by
    intro w hw
    cases hw

theorem Inv.targets {a : Kernel ListQueues} (h : s.Inv a) : Targets a := by
  intro w hw
  obtain ⟨j, hj0, hlive, hpid, _⟩ := h.attends w hw
  exact ⟨j, hj0, hlive, hpid⟩

/-- A PCB is given to a new process while it is free. -/
theorem birthAfter_of_ne {call : Call} {j : Task}
    (h : ∀ argc, call = .spawn argc → s.kernel.toCore.allocPcb ≠ some j) :
    s.birthAfter call j = s.birth j := by
  cases call with
  | spawn argc =>
    simp only [birthAfter]
    cases halloc : s.kernel.toCore.allocPcb with
    | none => rfl
    | some i =>
      refine Function.update_of_ne ?_ _ _
      rintro rfl
      exact h argc rfl halloc
  | _ => rfl

theorem targetAfter_of_ne {call : Call} {w : Task} (h : w ≠ s.kernel.currentRunning) :
    s.targetAfter call w = s.target w := by
  cases call with
  | waitpid pid => exact Function.update_of_ne h _ _
  | _ => rfl

theorem Inv.step {a : Kernel ListQueues} (h : s.Inv a) (hok : s.EventOk e)
    (hstep : s.step e = some s') :
    ∃ a', s'.Inv a' ∧ Moves a.toCore e.call a a' := by
  obtain ⟨k', hk, rfl⟩ := Option.map_eq_some_iff.mp hstep
  obtain ⟨a', hfollows', hrun', hmoves⟩ := h.run.follow h.follows hok.1 (kernelRun_eq_some.mp hk)
  refine ⟨a', ⟨hfollows', hrun', fun w hw => ?_⟩, hmoves⟩
  obtain ⟨j, hj0, hlive, hpid⟩ := hmoves.targets hok.2 h.targets w hw
  have hlives := hmoves.lifecycle
  have hcore : s.kernel.toCore = a.toCore := h.follows.core
  refine ⟨j, hj0, hlive, hpid, ?_⟩
  rcases hmoves.waits (by decide) hw with ⟨hw₀, hwait⟩ | ⟨hcur, hjoins, hcall⟩
  · obtain ⟨j₀, hj₀0, hlive₀, hpid₀, htarget⟩ := h.attends w hw₀
    have hjlive : (a.pcb j).status ≠ .none := by
      intro hnone
      obtain ⟨_, _, hborn, _⟩ := hlives.born j hj0 hnone hlive
      have hlt := h.run.pid_lt j₀
      rw [hpid₀, ← hwait, ← hpid, hborn] at hlt
      exact lt_irrefl _ hlt
    obtain rfl : j = j₀ := by
      refine h.run.pid_inj j j₀ ?_ fun hz => hjlive ((h.run.pid_live j hj0).mpr hz)
      rw [← (hlives.kept j hj0 hjlive hlive).1, hpid, hwait, hpid₀]
    have hwcur : w ≠ s.kernel.currentRunning := by
      rintro rfl
      rw [hcore, h.run.owner_current] at hw₀
      cases hw₀
    show s.targetAfter e.call w = some (j, s.birthAfter e.call j)
    rw [targetAfter_of_ne hwcur, birthAfter_of_ne, htarget]
    rintro argc _ halloc
    rw [hcore] at halloc
    exact hjlive (Core.allocPcb_eq_some halloc).2
  · obtain ⟨pid, hpidcall⟩ := Call.eq_waitpid_of_joins hjoins
    have hwait := hcall pid hpidcall
    have hjlive : (a.pcb j).status ≠ .none := by
      intro hnone
      obtain ⟨⟨argc, hspawn⟩, _⟩ := hlives.born j hj0 hnone hlive
      rw [hpidcall] at hspawn
      cases hspawn
    have hjpid : (a.pcb j).pid = pid := by
      rw [← (hlives.kept j hj0 hjlive hlive).1, hpid, hwait]
    have hfind : a.toCore.findPid pid = some j := by
      cases hf : a.toCore.findPid pid with
      | none =>
        have := List.find?_eq_none.mp hf j (List.mem_finRange j)
        exact absurd hjpid (by simpa using this)
      | some i =>
        have hi := Core.findPid_eq_some hf
        refine congrArg some (h.run.pid_inj i j (hi.trans hjpid.symm) fun hz => ?_)
        refine hjlive ((h.run.pid_live j hj0).mpr ?_)
        rw [hjpid, ← hi, hz]
    show s.targetAfter e.call w = some (j, s.birthAfter e.call j)
    rw [hpidcall]
    show Function.update s.target s.kernel.currentRunning
      ((s.kernel.toCore.findPid pid).map fun j => (j, s.birth j)) w = some (j, s.birth j)
    rw [hcore, hfind, hcur]
    exact Function.update_self _ _ _

/-- In every state that the events reach from boot, everybody in
`waitpid_queue` waits for a process that has not been freed, the one its call of
`do_waitpid` found.  The step that frees a process wakes those who wait for it
and no other waiter, by the walk of `free_proc` over the queue. -/
theorem waitpid_never_orphaned (barrier : BarrierId → Barrier) (tables : Nat → Nat → Nat)
    {s : WaitSystem} (h : Reaches WaitSystem.step EventOk (boot barrier tables) s) :
    (∃ L, Represents s.kernel.queues L ∧ s.Attends L ∧
      ∀ e s', s.EventOk e → s.step e = some s' →
        ∃ L', Represents s'.kernel.queues L' ∧ s.WakesWaiters s' L L') ∧
    ∀ (k k' : Kernel PtrQueues) (i : Task) (L : Lists QueueId Task), Represents k.queues L →
      k.freeProc i = .ok k' → ∃ L', Represents k'.queues L' ∧
        L'.items .waitpid =
          (L.items .waitpid).filter (fun w => (k.pcb w).waitpid ≠ (k.pcb i).pid) ∧
        ∃ got, L'.items .ready = L.items .ready ++ got ++
            (L.items .waitpid).filter (fun w => (k.pcb w).waitpid = (k.pcb i).pid) ∧
          ∀ w ∈ got, ∃ b, w ∈ L.items (.block b) := by
  refine ⟨?_, fun k k' i L hL hfree => ?_⟩
  · obtain ⟨a, hinv⟩ := h.invariant (fun s => ∃ a, s.Inv a) ⟨_, inv_boot barrier tables⟩ (by
      rintro s e s' ⟨a, hinv⟩ hok hstep
      obtain ⟨a', hinv', _⟩ := hinv.step hok hstep
      exact ⟨a', hinv'⟩)
    refine ⟨a.queues, hinv.follows.queues, fun w hw => ?_, fun e s' hok hstep => ?_⟩
    · obtain ⟨j, _, hlive, hpid, htarget⟩ := hinv.attends w ((a.queues.mem_iff _ w).mp hw)
      rw [hinv.follows.core]
      exact ⟨j, hlive, hpid, htarget⟩
    · obtain ⟨a', hinv', hmoves⟩ := hinv.step hok hstep
      refine ⟨a'.queues, hinv'.follows.queues, fun d hd0 hlive hfreed w hw hwd => ?_⟩
      rw [hinv.follows.core] at hlive ⊢
      rw [hinv'.follows.core] at hfreed ⊢
      rw [a'.queues.mem_iff, a'.queues.mem_iff]
      rcases hmoves.freed hinv.run.toSchedInv hok.2 hinv.targets hd0 hlive hfreed
        ((a.queues.mem_iff _ w).mp hw) hwd with ⟨hpid, hgo⟩ | ⟨hpid, hstay⟩
      · rw [if_pos hpid]
        exact hgo
      · rw [if_neg hpid]
        exact hstay
  · have hfollows : Follows ⟨k.toCore, L⟩ k := ⟨rfl, hL⟩
    obtain ⟨a', _, hfollows', hwaiters⟩ := (Kernel.freeProc_sim hfollows i).of_ok
      (freeProc_waiters ⟨k.toCore, L⟩ i) hfree
    exact ⟨a'.queues, hfollows'.queues, hwaiters⟩

/-- Tasks 2 and 3 wait for task 1, which exits. -/
theorem blank_waiters_woken :
    ∃ s, runIf WaitSystem.step EventOk (boot (fun _ => { goal := 1, now := 0 }) fun _ _ => 0)
        [⟨0, .spawn 0⟩, ⟨0, .spawn 0⟩, ⟨0, .spawn 0⟩, ⟨0, .yield⟩, ⟨0, .yield⟩,
          ⟨0, .waitpid 1⟩, ⟨0, .waitpid 1⟩] = some s ∧
      s.target 2 = some (1, 1) ∧ s.target 3 = some (1, 1) ∧
      ∃ L, Represents s.kernel.queues L ∧ s.Attends L ∧
        ∀ e s', s.EventOk e → s.step e = some s' →
          ∃ L', Represents s'.kernel.queues L' ∧ s.WakesWaiters s' L L' := by
  have hrun : (runIf WaitSystem.step EventOk
      (boot (fun _ => { goal := 1, now := 0 }) fun _ _ => 0)
      [⟨0, .spawn 0⟩, ⟨0, .spawn 0⟩, ⟨0, .spawn 0⟩, ⟨0, .yield⟩, ⟨0, .yield⟩,
        ⟨0, .waitpid 1⟩, ⟨0, .waitpid 1⟩]).map (fun s => (s.target 2, s.target 3)) =
      some (some (1, 1), some (1, 1)) := by
    decide +kernel
  obtain ⟨s, hs, hpair⟩ := Option.map_eq_some_iff.mp hrun
  obtain ⟨hsecond, hthird⟩ := Prod.mk.inj hpair
  exact ⟨s, hs, hsecond, hthird, (waitpid_never_orphaned _ _ (reaches_of_runIf hs)).1⟩

end WaitSystem

end MipsOs.Sched
