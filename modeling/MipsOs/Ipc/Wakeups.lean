import MipsOs.Ipc.Mailbox
import MipsOs.Sched.Moves

/-!
# No lost wake-up in the mailbox

A task that waits in one of the two conditions of a mailbox waits for a reason:
in `not_empty` its message is longer than what the ring holds, and in
`not_full` its message does not fit.  The check and the wait are one step,
because the code of the kernel is not preempted, and every transfer broadcasts
the condition whose waiters it can satisfy.

The two conditions belong to the mailbox: no other code blocks in them.
-/

namespace MipsOs.Ipc

open MipsOs.Lib MipsOs.Sched

namespace MboxSystem

/-- The call blocks in a condition of the mailbox behind its back. -/
def touches (names : MboxNames) (call : Call) : Bool :=
  call = .block (.cond names.notFull) || call = .block (.cond names.notEmpty)

/-- An event that leaves the conditions to the mailbox. -/
def wakeOk (names : MboxNames) (s : MboxSystem) (ev : MboxEvent) : Bool :=
  s.eventOk ev && match ev with
    | .event e => !touches names e.call
    | _ => true

/-- The ring after the transfer of a call. -/
def after (m : Mailbox) : MboxOp → Mailbox
  | .send msg => m.put msg
  | .recv msgLength => (m.take msgLength).2

theorem transfer_mbox (s : MboxSystem) (op : MboxOp) : (s.transfer op).mbox = after s.mbox op := by
  cases op <;> rfl

/-- Everybody in a condition of the mailbox is in a call that has to wait. -/
def Sleepers (names : MboxNames) (pc : Task → MboxPc) (m : Mailbox)
    (a : Kernel ListQueues) : Prop :=
  ∀ c, c = names.notFull ∨ c = names.notEmpty → ∀ i,
    a.queues.owner i = some (.block (.cond c)) →
      ∃ op, pc i = .waiting op ∧ op.waitsOn names = c ∧ op.mustWait m = true

section Step

variable {names : MboxNames} {pc : Task → MboxPc} {m : Mailbox} {s s' : MboxSystem}
  {a a' : Kernel ListQueues} {k : Kernel PtrQueues} {call : Call}

/-- A call that does not block in a condition of the mailbox makes nobody sleep
there. -/
theorem Sleepers.moves (h : Sleepers names pc m a) (hmoves : Moves a.toCore call a a')
    (hjoins : ∀ c, c = names.notFull ∨ c = names.notEmpty →
      call.joins ≠ some (.block (.cond c))) : Sleepers names pc m a' := by
  intro c hc i hi
  rcases hmoves.waits (by simp) hi with ⟨hi₀, _⟩ | ⟨_, hj, _⟩
  · exact h c hc i hi₀
  · exact absurd hj (hjoins c hc)

/-- The running task sleeps nowhere, so its place can change. -/
theorem Sleepers.goTo (h : Sleepers names pc m a) (hrun : RunInv a) (p : MboxPc) :
    Sleepers names (Function.update pc a.currentRunning p) m a := by
  intro c hc i hi
  have hne : i ≠ a.currentRunning := by
    rintro rfl
    rw [hrun.owner_current] at hi
    cases hi
  rw [Function.update_of_ne hne]
  exact h c hc i hi

/-- `do_block` in the condition that a call waits for. -/
theorem Sleepers.block (h : Sleepers names pc m a) {op : MboxOp}
    (hmoves : Moves a.toCore (.block (.cond (op.waitsOn names))) a a')
    (hpc : pc a.currentRunning = .waiting op) (hwait : op.mustWait m = true) :
    Sleepers names pc m a' := by
  intro c hc i hi
  rcases hmoves.waits (by simp) hi with ⟨hi₀, _⟩ | ⟨rfl, hj, _⟩
  · exact h c hc i hi₀
  · simp only [Call.joins, Option.some.injEq, QueueId.block.injEq, BlockQueue.cond.injEq] at hj
    exact ⟨op, hpc, hj, hwait⟩

/-- A transfer wakes everybody whom it could satisfy, and the others still have
to wait. -/
theorem Sleepers.transfer (h : Sleepers names pc m a) {op : MboxOp}
    (hlen : op.lengthOk = true)
    (hwoken : a.queues.items (.block (.cond (op.wakes names))) = []) :
    Sleepers names pc (after m op) a := by
  intro c hc i hi
  obtain ⟨op', hpc, hon, hwait⟩ := h c hc i hi
  have hne : op.wakes names ≠ c := by
    rintro rfl
    rw [← a.queues.mem_iff, hwoken] at hi
    cases hi
  refine ⟨op', hpc, hon, ?_⟩
  cases op with
  | send msg =>
    cases op' with
    | send msg' =>
      have hlong : m.buffUsed + msg'.length > maxMboxLength := of_decide_eq_true hwait
      refine decide_eq_true ?_
      show m.buffUsed + msg.length + msg'.length > maxMboxLength
      omega
    | recv msgLength' => exact absurd hon hne
  | recv msgLength =>
    cases op' with
    | send msg' => exact absurd hon hne
    | recv msgLength' =>
      have hnonneg : 0 ≤ msgLength := (of_decide_eq_true hlen).1
      have hfew : m.buffUsed - msgLength' < 0 := of_decide_eq_true hwait
      refine decide_eq_true ?_
      show m.buffUsed - msgLength - msgLength' < 0
      omega

/-! ## The steps of a call -/

/-- `do_mutex_lock_release` does not switch. -/
theorem follow_release (hrun : RunInv a) (hfollows : Follows a k) {lock : LockId}
    {k' : Kernel PtrQueues} (hstep : k.doMutexLockRelease lock = .ok k') :
    ∃ a', Follows a' k' ∧ RunInv a' ∧ Moves a.toCore (.release lock) a a' ∧
      a'.currentRunning = a.currentRunning := by
  have hswitch : Safe (kernelStep a ⟨0, .release lock⟩) fun a' =>
      a'.currentRunning = a.currentRunning :=
    (closed_currentRunning a.currentRunning).toQuiet.doMutexLockRelease rfl lock
  obtain ⟨a', _, hfollows', ⟨hrun', hmoves⟩, hcur⟩ := (Kernel.doMutexLockRelease_sim hfollows
    lock).of_ok ((hrun.step (e := ⟨0, .release lock⟩) (by simp)).and hswitch) hstep
  exact ⟨a', hfollows', hrun', hmoves, hcur⟩

/-- `do_condition_broadcast` leaves nobody in the condition. -/
theorem follow_broadcast (hrun : RunInv a) (hfollows : Follows a k) {queue : BlockQueue}
    {k' : Kernel PtrQueues} (hstep : k.doUnblockAll queue = .ok k') :
    ∃ a', Follows a' k' ∧ RunInv a' ∧ Moves a.toCore (.unblockAll queue) a a' ∧
      a'.currentRunning = a.currentRunning ∧ a'.queues.items (.block queue) = [] := by
  have hwoken : Safe (kernelStep a ⟨0, .unblockAll queue⟩) fun a' =>
      a'.currentRunning = a.currentRunning ∧ a'.queues.items (.block queue) = [] :=
    Kernel.doUnblockAll_rule (fun _ _ _ _ h => h) rfl
  obtain ⟨a', _, hfollows', ⟨hrun', hmoves⟩, hcur, hnil⟩ := (Kernel.unblockLoop_sim queue _
    hfollows).of_ok ((hrun.step (e := ⟨0, .unblockAll queue⟩) (by simp)).and hwoken) hstep
  exact ⟨a', hfollows', hrun', hmoves, hcur, hnil⟩

/-- The state between two steps. -/
structure WakeInv (names : MboxNames) (s : MboxSystem) (a : Kernel ListQueues) : Prop where
  follows : Follows a s.kernel
  run : RunInv a
  ring : s.Inv
  sleepers : Sleepers names s.pc s.mbox a

theorem WakeInv.event (h : WakeInv names s a) {e : Event} (hok : wakeOk names s (.event e) = true)
    (hrun : MboxSystem.run names s (.event e) = .ok s') : ∃ a', WakeInv names s' a' := by
  obtain ⟨k, hk, hs'⟩ := bind_eq_ok.mp hrun
  obtain rfl := Except.ok.inj hs'
  simp only [wakeOk, Bool.and_eq_true, Bool.not_eq_true', touches, Bool.or_eq_false_iff,
    decide_eq_false_iff_not] at hok
  obtain ⟨hevent, hfull, hempty⟩ := hok
  have hkill : e.call ≠ .kill 0 := by
    obtain ⟨sp, call⟩ := e
    rintro rfl
    cases hevent
  have hjoins : ∀ c, c = names.notFull ∨ c = names.notEmpty →
      e.call.joins ≠ some (.block (.cond c)) := by
    intro c hc hj
    have hblock : e.call = .block (.cond c) := by
      cases hcall : e.call with
      | block queue =>
        rw [hcall] at hj
        simp only [Call.joins, Option.some.injEq, QueueId.block.injEq] at hj
        rw [hj]
      | _ =>
        rw [hcall] at hj
        simp [Call.joins] at hj
    rcases hc with rfl | rfl
    · exact hfull hblock
    · exact hempty hblock
  obtain ⟨a', hfollows', hrun', hmoves⟩ := h.run.follow h.follows hkill hk
  exact ⟨a', hfollows', hrun', ⟨h.ring.wellFormed, h.ring.stream, h.ring.lengths⟩,
    h.sleepers.moves hmoves hjoins⟩

theorem WakeInv.acquire (h : WakeInv names s a) {sp : Nat} {op : MboxOp}
    (hlen : op.lengthOk = true) (hrun : acquire names s sp op = .ok s') :
    ∃ a', WakeInv names s' a' := by
  have hring := h.ring.acquire hlen hrun
  obtain ⟨k, hk, hs'⟩ := bind_eq_ok.mp hrun
  obtain rfl := Except.ok.inj hs'
  obtain ⟨a', hfollows', hrun', hmoves⟩ := h.run.follow (e := ⟨sp, .acquire names.lock⟩)
    h.follows (by simp) hk
  refine ⟨a', hfollows', hrun', hring, ?_⟩
  have hcur : s.kernel.currentRunning = a.currentRunning := congrArg _ h.follows.core
  show Sleepers names (Function.update s.pc s.kernel.currentRunning _) s.mbox a'
  rw [hcur]
  exact (h.sleepers.goTo h.run _).moves hmoves fun c _ hj => by simp [Call.joins] at hj

theorem WakeInv.loop (h : WakeInv names s a) {sp : Nat} {op : MboxOp}
    (hlen : op.lengthOk = true) (hrun : loop names s sp op = .ok s') :
    ∃ a', WakeInv names s' a' := by
  have hring := h.ring.loop hlen hrun
  have hcur : s.kernel.currentRunning = a.currentRunning := congrArg _ h.follows.core
  simp only [MboxSystem.loop] at hrun
  split at hrun
  · rename_i hwait
    obtain ⟨k₂, hk, hs'⟩ := bind_eq_ok.mp hrun
    obtain rfl := Except.ok.inj hs'
    obtain ⟨k₁, hrelease, hblock⟩ := bind_eq_ok.mp hk
    obtain ⟨a₁, hfollows₁, hrun₁, hmoves₁, hcur₁⟩ := follow_release h.run h.follows hrelease
    obtain ⟨a₂, hfollows₂, hrun₂, hmoves₂⟩ := hrun₁.follow
      (e := ⟨sp, .block (.cond (op.waitsOn names))⟩) hfollows₁ (by simp) hblock
    refine ⟨a₂, hfollows₂, hrun₂, hring, ?_⟩
    show Sleepers names (Function.update s.pc s.kernel.currentRunning (.waiting op)) s.mbox a₂
    rw [hcur]
    have hsleepers₁ := (h.sleepers.goTo h.run (.waiting op)).moves hmoves₁
      fun c _ hj => by simp [Call.joins] at hj
    refine hsleepers₁.block hmoves₂ ?_ hwait
    rw [hcur₁]
    exact Function.update_self _ _ _
  · obtain ⟨k₁, hbroadcast, hrest⟩ := bind_eq_ok.mp hrun
    obtain ⟨k₂, hrelease, hs'⟩ := bind_eq_ok.mp hrest
    obtain rfl := Except.ok.inj hs'
    obtain ⟨a₁, hfollows₁, hrun₁, hmoves₁, hcur₁, hwoken⟩ :=
      follow_broadcast h.run h.follows hbroadcast
    obtain ⟨a₂, hfollows₂, hrun₂, hmoves₂, _⟩ := follow_release hrun₁ hfollows₁ hrelease
    refine ⟨a₂, hfollows₂, hrun₂, hring, ?_⟩
    show Sleepers names (Function.update (s.transfer op).pc (s.transfer op).kernel.currentRunning
      .idle) (s.transfer op).mbox a₂
    have hpc : (s.transfer op).pc = s.pc := by cases op <;> rfl
    have hkernel : (s.transfer op).kernel = s.kernel := by cases op <;> rfl
    rw [hpc, hkernel, transfer_mbox, hcur]
    have hsleepers₁ := (h.sleepers.goTo h.run .idle).moves hmoves₁
      fun c _ hj => by simp [Call.joins] at hj
    exact (hsleepers₁.transfer hlen hwoken).moves hmoves₂
      fun c _ hj => by simp [Call.joins] at hj

theorem WakeInv.step {ev : MboxEvent} (h : WakeInv names s a) (hok : wakeOk names s ev = true)
    (hstep : s.step names ev = some s') : ∃ a', WakeInv names s' a' := by
  have hrun : MboxSystem.run names s ev = .ok s' := toOption_eq_some.mp hstep
  cases ev with
  | event e => exact h.event hok hrun
  | call sp op =>
    simp only [wakeOk, eventOk, Bool.and_eq_true] at hok
    exact h.acquire hok.1.2 hrun
  | resume sp =>
    simp only [MboxSystem.run] at hrun
    split at hrun
    · obtain rfl := Except.ok.inj hrun
      exact ⟨a, h⟩
    · rename_i op hpc
      exact h.loop (h.ring.lengths _ op (Or.inl hpc)) hrun
    · rename_i op hpc
      exact h.acquire (h.ring.lengths _ op (Or.inr hpc)) hrun

end Step

/-! ## Runs -/

/-- A mailbox whose conditions are empty when it is opened. -/
theorem wakeInv_opened {names : MboxNames} {k : Kernel PtrQueues} {a : Kernel ListQueues}
    (hfollows : Follows a k) (hrun : RunInv a)
    (hfull : QueueOps.isEmpty k.queues (.block (.cond names.notFull)) = true)
    (hempty : QueueOps.isEmpty k.queues (.block (.cond names.notEmpty)) = true)
    (buff : Int → UInt8) : WakeInv names (opened k buff) a := by
  refine ⟨hfollows, hrun, inv_opened k buff, fun c hc i hi => ?_⟩
  have hnil : a.queues.items (.block (.cond c)) = [] := by
    rw [hfollows.queues.isEmpty] at hfull hempty
    rcases hc with rfl | rfl
    · exact List.isEmpty_iff.mp hfull
    · exact List.isEmpty_iff.mp hempty
  rw [← a.queues.mem_iff, hnil] at hi
  cases hi

/-- In every state that calls and other events reach from a mailbox that was
just opened in any reachable kernel, everybody in `not_empty` waits for more
bytes than the ring holds, and everybody in `not_full` has a message that does
not fit. -/
theorem no_lost_wakeup (names : MboxNames) (hnames : names.notFull ≠ names.notEmpty)
    (barrier : BarrierId → Barrier) (tables : Nat → Nat → Nat) {k : Kernel PtrQueues}
    (hk : Reaches kernelRun (fun _ e => e.call ≠ .kill 0) (bootKernel barrier tables) k)
    (hfull : QueueOps.isEmpty k.queues (.block (.cond names.notFull)) = true)
    (hempty : QueueOps.isEmpty k.queues (.block (.cond names.notEmpty)) = true)
    (buff : Int → UInt8) {s : MboxSystem}
    (h : Reaches (MboxSystem.step names) (fun s ev => wakeOk names s ev = true) (opened k buff) s) :
    ∃ L : Lists QueueId Task, Represents s.kernel.queues L ∧
      (∀ i ∈ L.items (.block (.cond names.notEmpty)),
        ∃ len, s.pc i = .waiting (.recv len) ∧ s.mbox.buffUsed < len) ∧
      ∀ i ∈ L.items (.block (.cond names.notFull)),
        ∃ msg, s.pc i = .waiting (.send msg) ∧ s.mbox.buffUsed + msg.length > maxMboxLength := by
  obtain ⟨a₀, hfollows₀, hrun₀⟩ := reaches_runInv barrier tables hk
  have hstart := wakeInv_opened hfollows₀ hrun₀ hfull hempty buff
  obtain ⟨a, hinv⟩ := h.invariant (fun s => ∃ a, WakeInv names s a) ⟨a₀, hstart⟩ (by
    rintro s ev s' ⟨a, hinv⟩ hok hstep
    exact hinv.step hok hstep)
  refine ⟨a.queues, hinv.follows.queues, fun i hi => ?_, fun i hi => ?_⟩
  · obtain ⟨op, hpc, hon, hwait⟩ := hinv.sleepers _ (Or.inr rfl) i ((a.queues.mem_iff _ i).mp hi)
    cases op with
    | send msg => exact absurd hon hnames
    | recv len =>
      simp only [MboxOp.mustWait, decide_eq_true_eq] at hwait
      exact ⟨len, hpc, by omega⟩
  · obtain ⟨op, hpc, hon, hwait⟩ := hinv.sleepers _ (Or.inl rfl) i ((a.queues.mem_iff _ i).mp hi)
    cases op with
    | send msg =>
      simp only [MboxOp.mustWait, decide_eq_true_eq] at hwait
      exact ⟨msg, hpc, hwait⟩
    | recv len => exact absurd hon hnames.symm

/-- Task 1 waits for three bytes while the ring holds two. -/
theorem blank_receiver_waits :
    ∃ s, runIf (MboxSystem.step ⟨7, 3, 4⟩) (fun s ev => wakeOk ⟨7, 3, 4⟩ s ev = true)
        (opened blankKernel fun _ => 0)
        [.event ⟨0, .spawn 0⟩, .event ⟨0, .spawn 0⟩, .event ⟨0, .timer 5⟩,
          .call 0 (.recv 3), .resume 0, .call 0 (.send [1]), .resume 0, .event ⟨0, .yield⟩,
          .resume 0, .resume 0] = some s ∧
      s.pc 1 = .waiting (.recv 3) ∧ s.mbox.buffUsed = 1 ∧
      ∃ L : Lists QueueId Task, Represents s.kernel.queues L ∧
        (∀ i ∈ L.items (.block (.cond 4)),
          ∃ len, s.pc i = .waiting (.recv len) ∧ s.mbox.buffUsed < len) ∧
        ∀ i ∈ L.items (.block (.cond 3)),
          ∃ msg, s.pc i = .waiting (.send msg) ∧
            s.mbox.buffUsed + msg.length > maxMboxLength := by
  have hrun : (runIf (MboxSystem.step ⟨7, 3, 4⟩) (fun s ev => wakeOk ⟨7, 3, 4⟩ s ev = true)
      (opened blankKernel fun _ => 0)
      [.event ⟨0, .spawn 0⟩, .event ⟨0, .spawn 0⟩, .event ⟨0, .timer 5⟩,
        .call 0 (.recv 3), .resume 0, .call 0 (.send [1]), .resume 0, .event ⟨0, .yield⟩,
        .resume 0, .resume 0]).map (fun s => (s.pc 1, s.mbox.buffUsed)) =
      some (.waiting (.recv 3), 1) := by
    decide +kernel
  obtain ⟨s, hs, hpair⟩ := Option.map_eq_some_iff.mp hrun
  obtain ⟨hpc, hused⟩ := Prod.mk.inj hpair
  exact ⟨s, hs, hpc, hused, no_lost_wakeup ⟨7, 3, 4⟩ (by decide) _ _ (.refl _) (by decide)
    (by decide) _ (reaches_of_runIf hs)⟩

end MboxSystem

end MipsOs.Ipc
