import MipsOs.Ipc.Wakeups

/-!
# Messages of one length

When all calls on a mailbox send or receive messages of one length, the ring
holds whole messages.  A receiver then waits only in an empty ring, into which
every message fits, so no sender waits at the same time.
-/

namespace MipsOs.Ipc

open MipsOs.Lib MipsOs.Sched

/-- The argument `msg_length` of a call. -/
def MboxOp.msgLength : MboxOp → Int
  | .send msg => msg.length
  | .recv msgLength => msgLength

namespace MboxSystem

/-- An event that leaves the conditions to the mailbox, and whose message has
the one length. -/
def uniformOk (names : MboxNames) (n : Int) (s : MboxSystem) (ev : MboxEvent) : Bool :=
  wakeOk names s ev && match ev with
    | .call _ op => op.msgLength = n
    | _ => true

/-- The ring holds whole messages, and all calls are of the one length. -/
structure Uniform (n : Int) (s : MboxSystem) : Prop where
  used : n ∣ s.mbox.buffUsed
  calls : ∀ i op, s.pc i = .acquiring op ∨ s.pc i = .waiting op → op.msgLength = n

section Step

variable {names : MboxNames} {n : Int} {s s' : MboxSystem} {op : MboxOp}

theorem uniform_opened (n : Int) (k : Kernel PtrQueues) (buff : Int → UInt8) :
    Uniform n (opened k buff) where
  used := dvd_zero n
  calls := by
    intro i op h
    cases h with
    | inl h => cases h
    | inr h => cases h

theorem Uniform.goTo (h : Uniform n s) (k : Kernel PtrQueues) {pc : MboxPc}
    (hpc : ∀ op, pc = .acquiring op ∨ pc = .waiting op → op.msgLength = n) :
    Uniform n (s.goTo k pc) := by
  refine ⟨h.used, fun i op hi => ?_⟩
  by_cases hcur : i = s.kernel.currentRunning
  · subst hcur
    simp only [MboxSystem.goTo, Function.update_self] at hi
    exact hpc op hi
  · simp only [MboxSystem.goTo, Function.update_of_ne hcur] at hi
    exact h.calls i op hi

/-- A transfer moves one message. -/
theorem Uniform.transfer (h : Uniform n s) (hop : op.msgLength = n) :
    Uniform n (s.transfer op) := by
  cases op with
  | send msg =>
    refine ⟨?_, h.calls⟩
    show n ∣ s.mbox.buffUsed + msg.length
    exact dvd_add h.used (dvd_of_eq hop.symm)
  | recv msgLength =>
    refine ⟨?_, h.calls⟩
    show n ∣ s.mbox.buffUsed - msgLength
    exact dvd_sub h.used (dvd_of_eq hop.symm)

theorem Uniform.acquire (h : Uniform n s) {sp : Nat} (hop : op.msgLength = n)
    (hrun : MboxSystem.acquire names s sp op = .ok s') : Uniform n s' := by
  obtain ⟨k, _, hk⟩ := bind_eq_ok.mp hrun
  obtain rfl := Except.ok.inj hk
  apply h.goTo k
  intro op' hpc
  cases hpc with
  | inl heq =>
    obtain rfl := MboxPc.acquiring.inj heq
    exact hop
  | inr heq => cases heq

theorem Uniform.loop (h : Uniform n s) {sp : Nat} (hop : op.msgLength = n)
    (hrun : MboxSystem.loop names s sp op = .ok s') : Uniform n s' := by
  unfold MboxSystem.loop at hrun
  split at hrun
  · obtain ⟨k, _, hk⟩ := bind_eq_ok.mp hrun
    obtain rfl := Except.ok.inj hk
    apply h.goTo k
    intro op' hpc
    cases hpc with
    | inl heq => cases heq
    | inr heq =>
      obtain rfl := MboxPc.waiting.inj heq
      exact hop
  · obtain ⟨k, _, hk⟩ := bind_eq_ok.mp hrun
    obtain ⟨k', _, hk'⟩ := bind_eq_ok.mp hk
    obtain rfl := Except.ok.inj hk'
    apply (h.transfer hop).goTo k'
    intro op' hpc
    cases hpc with
    | inl heq => cases heq
    | inr heq => cases heq

theorem Uniform.step {ev : MboxEvent} (h : Uniform n s) (hok : uniformOk names n s ev = true)
    (hstep : s.step names ev = some s') : Uniform n s' := by
  have hrun : MboxSystem.run names s ev = .ok s' := toOption_eq_some.mp hstep
  cases ev with
  | event e =>
    obtain ⟨k, _, hk⟩ := bind_eq_ok.mp hrun
    obtain rfl := Except.ok.inj hk
    exact ⟨h.used, h.calls⟩
  | call sp op =>
    simp only [uniformOk, Bool.and_eq_true, decide_eq_true_eq] at hok
    exact h.acquire hok.2 hrun
  | resume sp =>
    simp only [MboxSystem.run] at hrun
    split at hrun
    · obtain rfl := Except.ok.inj hrun
      exact h
    · rename_i op hpc
      exact h.loop (h.calls _ op (Or.inl hpc)) hrun
    · rename_i op hpc
      exact h.acquire (h.calls _ op (Or.inr hpc)) hrun

end Step

/-! ## Runs -/

/-- When all calls on a mailbox that was just opened in any reachable kernel
are of one length, then in every state either nobody waits in `not_full` or
nobody waits in `not_empty`. -/
theorem no_uniform_deadlock (names : MboxNames) (hnames : names.notFull ≠ names.notEmpty)
    (n : Int) (hle : n ≤ maxMboxLength)
    (barrier : BarrierId → Barrier) (tables : Nat → Nat → Nat) {k : Kernel PtrQueues}
    (hk : Reaches kernelRun (fun _ e => e.call ≠ .kill 0) (bootKernel barrier tables) k)
    (hfull : QueueOps.isEmpty k.queues (.block (.cond names.notFull)) = true)
    (hempty : QueueOps.isEmpty k.queues (.block (.cond names.notEmpty)) = true)
    (buff : Int → UInt8) {s : MboxSystem}
    (h : Reaches (MboxSystem.step names) (fun s ev => uniformOk names n s ev = true)
      (opened k buff) s) :
    ∃ L : Lists QueueId Task, Represents s.kernel.queues L ∧
      (L.items (.block (.cond names.notFull)) = [] ∨
        L.items (.block (.cond names.notEmpty)) = []) := by
  obtain ⟨a₀, hfollows₀, hrun₀⟩ := reaches_runInv barrier tables hk
  have hstart := wakeInv_opened hfollows₀ hrun₀ hfull hempty buff
  obtain ⟨⟨a, hinv⟩, huniform⟩ := h.invariant
    (fun s => (∃ a, WakeInv names s a) ∧ Uniform n s) ⟨⟨a₀, hstart⟩, uniform_opened n k buff⟩ (by
      intro s ev s' hs hok hstep
      obtain ⟨⟨a, hinv⟩, huniform⟩ := hs
      have hwake : wakeOk names s ev = true := by
        simp only [uniformOk, Bool.and_eq_true] at hok
        exact hok.1
      exact ⟨hinv.step hwake hstep, huniform.step hok hstep⟩)
  refine ⟨a.queues, hinv.follows.queues, ?_⟩
  by_contra hboth
  rw [not_or] at hboth
  obtain ⟨hsenders, hreceivers⟩ := hboth
  obtain ⟨i, hi⟩ := List.exists_mem_of_ne_nil _ hsenders
  obtain ⟨j, hj⟩ := List.exists_mem_of_ne_nil _ hreceivers
  obtain ⟨op, hpc, hon, hwait⟩ := hinv.sleepers _ (Or.inl rfl) i ((a.queues.mem_iff _ i).mp hi)
  obtain ⟨op', hpc', hon', hwait'⟩ :=
    hinv.sleepers _ (Or.inr rfl) j ((a.queues.mem_iff _ j).mp hj)
  have hlen := huniform.calls i op (Or.inr hpc)
  have hlen' := huniform.calls j op' (Or.inr hpc')
  have hnonneg := hinv.ring.wellFormed.used_nonneg
  cases op with
  | recv len => exact hnames hon.symm
  | send msg =>
    cases op' with
    | send msg' => exact hnames hon'
    | recv len' =>
      have hlong : s.mbox.buffUsed + n > maxMboxLength := by
        rw [← hlen]
        exact of_decide_eq_true hwait
      have hfew : s.mbox.buffUsed - n < 0 := by
        rw [← hlen']
        exact of_decide_eq_true hwait'
      have hzero : s.mbox.buffUsed = 0 :=
        Int.eq_zero_of_dvd_of_nonneg_of_lt hnonneg (by omega) huniform.used
      omega

/-- Task 1 waits for two bytes in an empty ring, task 2 sends them, task 1 wakes up and
copies them out, and then it waits for two more. -/
def oneMessage : List MboxEvent :=
  [.event ⟨0, .spawn 0⟩, .event ⟨0, .spawn 0⟩, .event ⟨0, .timer 5⟩, .call 0 (.recv 2), .resume 0,
    .call 0 (.send [1, 2]), .resume 0, .event ⟨0, .timer 9⟩, .resume 0, .resume 0,
    .call 0 (.recv 2), .resume 0]

/-- After the message the receiver is alone in the queues of the mailbox. -/
theorem oneMessage_receiver_alone :
    ∃ s, runIf (MboxSystem.step ⟨7, 3, 4⟩) (fun s ev => uniformOk ⟨7, 3, 4⟩ 2 s ev = true)
        (opened blankKernel fun _ => 0) oneMessage = some s ∧
      (s.pc 1 = .waiting (.recv 2) ∧ s.received = [[1, 2]]) ∧
      ∃ L : Lists QueueId Task, Represents s.kernel.queues L ∧
        (L.items (.block (.cond 3)) = [] ∨ L.items (.block (.cond 4)) = []) := by
  have hrun : ((runIf (MboxSystem.step ⟨7, 3, 4⟩)
      (fun s ev => uniformOk ⟨7, 3, 4⟩ 2 s ev = true) (opened blankKernel fun _ => 0)
      oneMessage).map fun s => decide (s.pc 1 = .waiting (.recv 2) ∧ s.received = [[1, 2]])) =
        some true := by
    decide +kernel
  obtain ⟨s, hs, hstate⟩ := Option.map_eq_some_iff.mp hrun
  exact ⟨s, hs, of_decide_eq_true hstate, no_uniform_deadlock ⟨7, 3, 4⟩ (by decide) 2 (by decide)
    _ _ (.refl _) (by decide) (by decide) _ (reaches_of_runIf hs)⟩

end MboxSystem

end MipsOs.Ipc
