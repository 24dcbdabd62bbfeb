import MipsOs.Lib.Ring
import MipsOs.Lib.Run
import MipsOs.Sched.Agreement

/-!
# The mailbox

`do_mbox_send` and `do_mbox_recv` of `libs/mailbox.c` over the pointer
kernel.  Both are interrupted where they block: in the acquire of the lock,
in the wait for the condition, and in the acquire at the end of the wait.
`MboxPc` is the place of a task in that code.  A step runs the code from one
such place to the next.

`mailbox_fifo` is the result: what the completed receives returned, followed
by what is in the ring, is what the completed sends wrote.
-/

namespace MipsOs.Ipc

open MipsOs.Lib MipsOs.Sched

/-- `MAX_MBOX_LENGTH` -/
def maxMboxLength : Int := 64

/-- The ring of a `mailbox_t`.  `endPos` is the field `end`. -/
structure Mailbox where
  buff : Int → UInt8
  buffUsed : Int
  start : Int
  endPos : Int

namespace Mailbox

/-- The fields that `init_mbox` sets, over whatever is in the buffer. -/
def init (buff : Int → UInt8) : Mailbox where
  buff := buff
  buffUsed := 0
  start := 0
  endPos := 0

/-- The loop of `do_mbox_send` that copies the message from its byte `i` on. -/
def copyIn (endPos : Int) : Nat → List UInt8 → (Int → UInt8) → Int → UInt8
  | _, [], dst => dst
  | i, b :: rest, dst =>
    copyIn endPos (i + 1) rest (Function.update dst ((endPos + i).tmod maxMboxLength) b)

/-- The loop of `do_mbox_recv`. -/
def copyOut (src : Int → UInt8) (start msgLength : Int) : List UInt8 :=
  (List.range msgLength.toNat).map fun i : Nat => src ((start + i).tmod maxMboxLength)

/-- `do_mbox_send` while it holds the lock and the message fits. -/
def put (m : Mailbox) (msg : List UInt8) : Mailbox where
  buff := copyIn m.endPos 0 msg m.buff
  buffUsed := m.buffUsed + msg.length
  start := m.start
  endPos := (m.endPos + msg.length).tmod maxMboxLength

/-- `do_mbox_recv` while it holds the lock and the mailbox has the bytes. -/
def take (m : Mailbox) (msgLength : Int) : List UInt8 × Mailbox :=
  (copyOut m.buff m.start msgLength,
    { m with
      buffUsed := m.buffUsed - msgLength
      start := (m.start + msgLength).tmod maxMboxLength })

end Mailbox

/-- The addresses in a `mailbox_t`. -/
structure MboxNames where
  lock : LockId
  notFull : CondId
  notEmpty : CondId

/-- A call of one of the two functions. -/
inductive MboxOp where
  | send (msg : List UInt8)
  | recv (msgLength : Int)
  deriving DecidableEq, Repr

namespace MboxOp

/-- The loop condition: the call has to wait. -/
def mustWait (m : Mailbox) : MboxOp → Bool
  | .send msg => m.buffUsed + msg.length > maxMboxLength
  | .recv msgLength => m.buffUsed - msgLength < 0

/-- The condition that the call waits for. -/
def waitsOn (names : MboxNames) : MboxOp → CondId
  | .send _ => names.notFull
  | .recv _ => names.notEmpty

/-- The condition that the call broadcasts. -/
def wakes (names : MboxNames) : MboxOp → CondId
  | .send _ => names.notEmpty
  | .recv _ => names.notFull

/-- The length of the message is between 0 and `MAX_MBOX_LENGTH`. -/
def lengthOk : MboxOp → Bool
  | .send msg => (msg.length : Int) ≤ maxMboxLength
  | .recv msgLength => 0 ≤ msgLength ∧ msgLength ≤ maxMboxLength

end MboxOp

/-- Where a task is. -/
inductive MboxPc where
  | idle
  /-- In or behind an acquire of the lock, before the loop condition. -/
  | acquiring (op : MboxOp)
  /-- In the `do_block` of `do_condition_wait`. -/
  | waiting (op : MboxOp)
  deriving DecidableEq, Repr

/-- The kernel, a mailbox, the places of the tasks, and the messages of the
completed calls in the order of completion. -/
structure MboxSystem where
  kernel : Kernel PtrQueues
  mbox : Mailbox
  pc : Task → MboxPc
  sent : List (List UInt8)
  received : List (List UInt8)

/-- An event of the kernel, or a step of `mbox_send` or `mbox_recv`. -/
inductive MboxEvent where
  /-- An event of a task that is in neither function. -/
  | event (e : Event)
  /-- A call of one of the two functions. -/
  | call (sp : Nat) (op : MboxOp)
  /-- The running task goes on in its call. -/
  | resume (sp : Nat)

namespace MboxSystem

/-- The place of the running task. -/
def curPc (s : MboxSystem) : MboxPc := s.pc s.kernel.currentRunning

/-- The kernel and the place of the task that ran. -/
def goTo (s : MboxSystem) (k : Kernel PtrQueues) (pc : MboxPc) : MboxSystem :=
  { s with kernel := k, pc := Function.update s.pc s.kernel.currentRunning pc }

/-- The transfer of a call, with the record of its completion. -/
def transfer (s : MboxSystem) : MboxOp → MboxSystem
  | .send msg => { s with mbox := s.mbox.put msg, sent := s.sent ++ [msg] }
  | .recv msgLength =>
    let (msg, mbox) := s.mbox.take msgLength
    { s with mbox := mbox, received := s.received ++ [msg] }

/-- `do_condition_wait` up to where it blocks. -/
def conditionWait (k : Kernel PtrQueues) (sp : Nat) (lock : LockId) (condition : CondId) :
    Except Fault (Kernel PtrQueues) := do
  let k ← k.doMutexLockRelease lock
  k.doBlock sp (.cond condition)

/-- The code behind an acquire: wait again, or transfer the message, broadcast
and release the lock. -/
def loop (names : MboxNames) (s : MboxSystem) (sp : Nat) (op : MboxOp) :
    Except Fault MboxSystem :=
  if op.mustWait s.mbox then do
    let k ← conditionWait s.kernel sp names.lock (op.waitsOn names)
    return s.goTo k (.waiting op)
  else do
    let k ← s.kernel.doUnblockAll (.cond (op.wakes names))
    let k ← k.doMutexLockRelease names.lock
    return (s.transfer op).goTo k .idle

/-- The acquire at the start of a call and at the end of a wait. -/
def acquire (names : MboxNames) (s : MboxSystem) (sp : Nat) (op : MboxOp) :
    Except Fault MboxSystem := do
  let k ← s.kernel.doMutexLockAcquire sp names.lock
  return s.goTo k (.acquiring op)

/-- One event.  A step of a call runs up to the next point where it can block. -/
def run (names : MboxNames) (s : MboxSystem) : MboxEvent → Except Fault MboxSystem
  | .event e => do
    let k ← kernelStep s.kernel e
    return { s with kernel := k }
  | .call sp op => acquire names s sp op
  | .resume sp =>
    match s.curPc with
    | .idle => .ok s
    | .acquiring op => loop names s sp op
    | .waiting op => acquire names s sp op

/-- One event that does not fault. -/
def step (names : MboxNames) (s : MboxSystem) (ev : MboxEvent) : Option MboxSystem :=
  (run names s ev).toOption

/-- A task that is in a call goes on with it, nobody is killed, and the
messages are not too long. -/
def eventOk (s : MboxSystem) : MboxEvent → Bool
  | .event ⟨_, .kill _⟩ => false
  | .event _ => s.curPc = .idle
  | .call _ op => s.curPc = .idle && op.lengthOk
  | .resume _ => s.curPc ≠ .idle

/-- Any kernel with a mailbox that was just opened. -/
def opened (k : Kernel PtrQueues) (buff : Int → UInt8) : MboxSystem where
  kernel := k
  mbox := .init buff
  pc := fun _ => .idle
  sent := []
  received := []

end MboxSystem

/-! ## The ring -/

namespace Mailbox

variable {m : Mailbox}

/-- The bytes of the ring from `start` on. -/
def contents (m : Mailbox) : List UInt8 :=
  Ring.window maxMboxLength m.buff m.start m.buffUsed.toNat

/-- The counters of a mailbox. -/
structure WellFormed (m : Mailbox) : Prop where
  used_nonneg : 0 ≤ m.buffUsed
  used_le : m.buffUsed ≤ maxMboxLength
  start_nonneg : 0 ≤ m.start
  start_lt : m.start < maxMboxLength
  end_eq : m.endPos = (m.start + m.buffUsed) % maxMboxLength

theorem copyIn_eq {endPos : Int} (hend : 0 ≤ endPos) (i : Nat) (msg : List UInt8)
    (dst : Int → UInt8) :
    copyIn endPos i msg dst = Ring.fill maxMboxLength msg (endPos + i) dst := by
  induction msg generalizing i dst with
  | nil => rfl
  | cons b rest ih =>
    rw [copyIn, Ring.fill, ih, Int.tmod_eq_emod_of_nonneg (by omega)]
    push_cast
    rw [add_assoc]

theorem copyOut_eq {start : Int} (hstart : 0 ≤ start) (src : Int → UInt8) (msgLength : Int) :
    copyOut src start msgLength = Ring.window maxMboxLength src start msgLength.toNat := by
  refine List.map_congr_left fun i _ => ?_
  rw [Int.tmod_eq_emod_of_nonneg (by omega)]

theorem WellFormed.end_nonneg (h : m.WellFormed) : 0 ≤ m.endPos := by
  rw [h.end_eq]
  exact Int.emod_nonneg _ (by decide)

theorem WellFormed.end_lt (h : m.WellFormed) : m.endPos < maxMboxLength := by
  rw [h.end_eq]
  exact Int.emod_lt_of_pos _ (by decide)

theorem wellFormed_init (buff : Int → UInt8) : (init buff).WellFormed :=
  ⟨le_rfl, by simp [init, maxMboxLength], le_rfl, by simp [init, maxMboxLength], rfl⟩

/-- A message that fits goes behind the contents. -/
theorem WellFormed.put (h : m.WellFormed) {msg : List UInt8}
    (hfit : m.buffUsed + msg.length ≤ maxMboxLength) :
    (m.put msg).WellFormed ∧ (m.put msg).contents = m.contents ++ msg := by
  have hused := h.used_nonneg
  have hcast : ((m.buffUsed.toNat : Nat) : Int) = m.buffUsed := Int.toNat_of_nonneg hused
  refine ⟨⟨?_, hfit, h.start_nonneg, h.start_lt, ?_⟩, ?_⟩
  · simp only [Mailbox.put]
    omega
  · have hend := h.end_nonneg
    simp only [Mailbox.put]
    rw [Int.tmod_eq_emod_of_nonneg (by omega), h.end_eq, Int.emod_add_emod, add_assoc]
  · have hlen : (m.buffUsed + msg.length).toNat = m.buffUsed.toNat + msg.length := by omega
    simp only [contents, Mailbox.put, copyIn_eq h.end_nonneg, hlen]
    rw [Nat.cast_zero, add_zero, h.end_eq, Ring.fill_emod, ← hcast, Int.toNat_natCast]
    exact Ring.window_fill msg (by rw [hcast]; exact hfit)

/-- What is taken was in front of the contents. -/
theorem WellFormed.take (h : m.WellFormed) {msgLength : Int} (hlen : 0 ≤ msgLength)
    (hhas : msgLength ≤ m.buffUsed) :
    (m.take msgLength).2.WellFormed ∧
      (m.take msgLength).1 ++ (m.take msgLength).2.contents = m.contents := by
  have hstart := h.start_nonneg
  have hle := h.used_le
  have hmod : (m.start + msgLength).tmod maxMboxLength = (m.start + msgLength) % maxMboxLength :=
    Int.tmod_eq_emod_of_nonneg (by omega)
  refine ⟨⟨?_, ?_, ?_, ?_, ?_⟩, ?_⟩
  · simp only [Mailbox.take]
    omega
  · simp only [Mailbox.take]
    omega
  · simp only [Mailbox.take, hmod]
    exact Int.emod_nonneg _ (by decide)
  · simp only [Mailbox.take, hmod]
    exact Int.emod_lt_of_pos _ (by decide)
  · simp only [Mailbox.take, hmod]
    rw [Int.emod_add_emod, h.end_eq]
    congr 1
    ring
  · have hsplit : m.buffUsed.toNat = msgLength.toNat + (m.buffUsed - msgLength).toNat := by
      omega
    have hcast : ((msgLength.toNat : Nat) : Int) = msgLength := Int.toNat_of_nonneg hlen
    simp only [contents, Mailbox.take, hmod, copyOut_eq hstart, Ring.window_emod]
    rw [hsplit, Ring.window_add, hcast]

end Mailbox

/-! ## Runs -/

namespace MboxSystem

variable {names : MboxNames} {s s' : MboxSystem}

/-- The bytes that were sent are the bytes that were received and the bytes in
the ring, and no call is longer than the ring. -/
structure Inv (s : MboxSystem) : Prop where
  wellFormed : s.mbox.WellFormed
  stream : s.received.flatten ++ s.mbox.contents = s.sent.flatten
  lengths : ∀ i op, s.pc i = .acquiring op ∨ s.pc i = .waiting op → op.lengthOk = true

theorem inv_opened (k : Kernel PtrQueues) (buff : Int → UInt8) : (opened k buff).Inv where
  wellFormed := Mailbox.wellFormed_init buff
  stream := rfl
  lengths := by
    rintro i op (h | h) <;> cases h

/-- Going on to a place with a call that is not too long. -/
theorem Inv.goTo (h : s.Inv) (k : Kernel PtrQueues) {pc : MboxPc}
    (hpc : ∀ op, pc = .acquiring op ∨ pc = .waiting op → op.lengthOk = true) :
    (s.goTo k pc).Inv := by
  refine ⟨h.wellFormed, h.stream, fun i op hi => ?_⟩
  by_cases hcur : i = s.kernel.currentRunning
  · subst hcur
    simp only [MboxSystem.goTo, Function.update_self] at hi
    exact hpc op hi
  · simp only [MboxSystem.goTo, Function.update_of_ne hcur] at hi
    exact h.lengths i op hi

/-- A transfer moves the front or the back of the stream. -/
theorem Inv.transfer (h : s.Inv) {op : MboxOp} (hlen : op.lengthOk = true)
    (hgo : op.mustWait s.mbox = false) : (s.transfer op).Inv := by
  cases op with
  | send msg =>
    have hfit : s.mbox.buffUsed + msg.length ≤ maxMboxLength := by
      simpa [MboxOp.mustWait] using hgo
    obtain ⟨hwf, hcontents⟩ := h.wellFormed.put hfit
    refine ⟨hwf, ?_, h.lengths⟩
    simp only [MboxSystem.transfer, hcontents, List.flatten_append, List.flatten_singleton]
    rw [← List.append_assoc, h.stream]
  | recv msgLength =>
    have hhas : msgLength ≤ s.mbox.buffUsed := by
      simpa [MboxOp.mustWait] using hgo
    have hnonneg : 0 ≤ msgLength := by
      simp only [MboxOp.lengthOk, decide_eq_true_eq] at hlen
      exact hlen.1
    obtain ⟨hwf, hcontents⟩ := h.wellFormed.take hnonneg hhas
    refine ⟨hwf, ?_, h.lengths⟩
    simp only [MboxSystem.transfer, List.flatten_append, List.flatten_singleton]
    rw [List.append_assoc, hcontents, h.stream]

theorem Inv.acquire (h : s.Inv) {sp : Nat} {op : MboxOp} (hlen : op.lengthOk = true)
    (hrun : acquire names s sp op = .ok s') : s'.Inv := by
  obtain ⟨k, _, hk⟩ := bind_eq_ok.mp hrun
  obtain rfl := Except.ok.inj hk
  refine h.goTo k ?_
  rintro op' (heq | heq)
  · obtain rfl := MboxPc.acquiring.inj heq
    exact hlen
  · cases heq

theorem Inv.loop (h : s.Inv) {sp : Nat} {op : MboxOp} (hlen : op.lengthOk = true)
    (hrun : loop names s sp op = .ok s') : s'.Inv := by
  simp only [MboxSystem.loop] at hrun
  split at hrun
  · obtain ⟨k, _, hk⟩ := bind_eq_ok.mp hrun
    obtain rfl := Except.ok.inj hk
    refine h.goTo k ?_
    rintro op' (heq | heq)
    · cases heq
    · obtain rfl := MboxPc.waiting.inj heq
      exact hlen
  · rename_i hgo
    obtain ⟨k, _, hk⟩ := bind_eq_ok.mp hrun
    obtain ⟨k', _, hk'⟩ := bind_eq_ok.mp hk
    obtain rfl := Except.ok.inj hk'
    refine (h.transfer hlen (by simpa using hgo)).goTo k' ?_
    rintro op' (heq | heq) <;> cases heq

theorem Inv.step {ev : MboxEvent} (h : s.Inv) (hok : s.eventOk ev = true)
    (hstep : s.step names ev = some s') : s'.Inv := by
  have hrun : run names s ev = .ok s' := toOption_eq_some.mp hstep
  cases ev with
  | event e =>
    obtain ⟨k, _, hk⟩ := bind_eq_ok.mp hrun
    obtain rfl := Except.ok.inj hk
    exact ⟨h.wellFormed, h.stream, h.lengths⟩
  | call sp op =>
    simp only [eventOk, Bool.and_eq_true] at hok
    exact h.acquire hok.2 hrun
  | resume sp =>
    simp only [run] at hrun
    split at hrun
    · obtain rfl := Except.ok.inj hrun
      exact h
    · rename_i op hpc
      exact h.loop (h.lengths _ op (Or.inl hpc)) hrun
    · rename_i op hpc
      exact h.acquire (h.lengths _ op (Or.inr hpc)) hrun

/-- In every state that calls and other events reach from a mailbox that was
just opened, the counters are in range and agree, and the received messages
followed by the bytes in the ring are the sent messages. -/
theorem mailbox_fifo (names : MboxNames) (k : Kernel PtrQueues) (buff : Int → UInt8)
    {s : MboxSystem}
    (h : Reaches (MboxSystem.step names) (fun s ev => s.eventOk ev = true) (opened k buff) s) :
    (0 ≤ s.mbox.buffUsed ∧ s.mbox.buffUsed ≤ maxMboxLength) ∧
      (0 ≤ s.mbox.start ∧ s.mbox.start < maxMboxLength) ∧
      (0 ≤ s.mbox.endPos ∧ s.mbox.endPos < maxMboxLength) ∧
      s.mbox.endPos = (s.mbox.start + s.mbox.buffUsed) % maxMboxLength ∧
      s.received.flatten ++ s.mbox.contents = s.sent.flatten := by
  have hinv := h.invariant _ (inv_opened k buff) fun s ev s' h => h.step
  have hwf := hinv.wellFormed
  exact ⟨⟨hwf.used_nonneg, hwf.used_le⟩, ⟨hwf.start_nonneg, hwf.start_lt⟩,
    ⟨hwf.end_nonneg, hwf.end_lt⟩, hwf.end_eq, hinv.stream⟩

/-- Task 1 waits for three bytes that task 2 sends in two messages. -/
theorem blank_mailbox_transfer :
    ∃ s, runIf (MboxSystem.step ⟨7, 3, 4⟩) (fun s ev => s.eventOk ev = true)
        (opened blankKernel fun _ => 0)
        [.event ⟨0, .spawn 0⟩, .event ⟨0, .spawn 0⟩, .event ⟨0, .timer 5⟩,
          .call 0 (.recv 3), .resume 0, .call 0 (.send [1, 2]), .resume 0,
          .call 0 (.send [5, 6]), .resume 0, .event ⟨0, .yield⟩, .resume 0, .resume 0] =
          some s ∧
      s.sent = [[1, 2], [5, 6]] ∧ s.received = [[1, 2, 5]] ∧
      s.received.flatten ++ s.mbox.contents = s.sent.flatten := by
  have hrun : (runIf (MboxSystem.step ⟨7, 3, 4⟩) (fun s ev => s.eventOk ev = true)
      (opened blankKernel fun _ => 0)
      [.event ⟨0, .spawn 0⟩, .event ⟨0, .spawn 0⟩, .event ⟨0, .timer 5⟩,
        .call 0 (.recv 3), .resume 0, .call 0 (.send [1, 2]), .resume 0,
        .call 0 (.send [5, 6]), .resume 0, .event ⟨0, .yield⟩, .resume 0, .resume 0]).map
      (fun s => (s.sent, s.received)) = some ([[1, 2], [5, 6]], [[1, 2, 5]]) := by
    decide +kernel
  obtain ⟨s, hs, hpair⟩ := Option.map_eq_some_iff.mp hrun
  obtain ⟨hsent, hreceived⟩ := Prod.mk.inj hpair
  obtain ⟨_, _, _, _, hstream⟩ := mailbox_fifo _ _ _ (reaches_of_runIf hs)
  exact ⟨s, hs, hsent, hreceived, hstream⟩

end MboxSystem

end MipsOs.Ipc
