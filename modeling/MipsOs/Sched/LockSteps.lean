import MipsOs.Sched.Invariant
import MipsOs.Lib.LockTable

/-!
# What an event does to the locks

The locks of the kernel are a `LockTable`: the status of each lock and the
list of the tasks in its block queue.  An event makes one move on the table
(`LockMove`): it locks a lock, joins a queue, releases a lock, or a task
dies and the locks in its `locks_got` are released one after the other.

`lockMove_step` is the result: every event that does not touch a block queue
of a lock directly makes the move that `Core.lockMove` says, and nobody but
the task that the move names dies.
-/

namespace MipsOs.Sched

open MipsOs.Lib

/-- The locks of the kernel. -/
def Kernel.lockTable (k : Kernel ListQueues) : LockTable LockId Task where
  locked := fun l => k.lockStatus l = .locked
  queue := fun l => k.queues.items (.block (.lock l))

theorem Kernel.lockTable_locked (k : Kernel ListQueues) (l : LockId) :
    k.lockTable.locked l = true ↔ k.lockStatus l = .locked := by
  simp [Kernel.lockTable]

theorem Kernel.lockTable_open (k : Kernel ListQueues) (l : LockId) :
    k.lockTable.locked l = false ↔ k.lockStatus l = .unlocked := by
  simp only [Kernel.lockTable, decide_eq_false_iff_not]
  cases k.lockStatus l <;> simp

/-- The locks in `locks_got`, in the order of the slots. -/
def Pcb.recorded (p : Pcb) : List LockId := (List.finRange maxLock).filterMap p.locksGot

/-- A process that has not been freed. -/
def Core.alive (c : Core) (p : Task) : Bool := (c.pcb p).status ≠ .none

/-- What an event does to the locks. -/
inductive LockMove where
  | stay
  | lock (l : LockId) (p : Task)
  | block (l : LockId) (p : Task)
  | release (l : LockId) (p : Task)
  | death (p : Task) (ls : List LockId)

/-- The locks after a move. -/
def LockMove.apply (t : LockTable LockId Task) : LockMove → LockTable LockId Task
  | .stay => t
  | .lock l _ => t.lock l
  | .block l p => t.block l p
  | .release l _ => t.release l
  | .death p ls => t.death p ls

/-- The task that the move frees. -/
def LockMove.dying : LockMove → Option Task
  | .death p _ => some p
  | _ => none

/-- The task dies with the locks in its record. -/
def Core.deathOf (c : Core) (p : Task) : LockMove := .death p (c.pcb p).recorded

/-- The move that a call makes. -/
def Core.lockMove (c : Core) : Call → LockMove
  | .acquire l =>
    if c.lockStatus l = .unlocked then .lock l c.currentRunning
    else .block l c.currentRunning
  | .release l => .release l c.currentRunning
  | .exit => c.deathOf c.currentRunning
  | .kill pid =>
    match c.findPid pid with
    | none => .stay
    | some i => if (c.pcb i).status = .running then .stay else c.deathOf i
  | .yield =>
    if (c.pcb c.currentRunning).status = .exited then c.deathOf c.currentRunning else .stay
  | .timer _ =>
    if (c.pcb c.currentRunning).status = .exited then c.deathOf c.currentRunning else .stay
  | _ => .stay

/-- The call works on the block queue of a lock behind the back of the lock. -/
def Call.touchesLockQueue : Call → Bool
  | .block (.lock _) => true
  | .unblockOne (.lock _) => true
  | .unblockAll (.lock _) => true
  | _ => false

/-! ## Moves that leave the locks alone -/

/-- The locks are `t`, and the tasks in `living` have not been freed. -/
def Locks (t : LockTable LockId Task) (living : Task → Prop) (k : Kernel ListQueues) : Prop :=
  k.lockTable = t ∧ ∀ p, living p → (k.pcb p).status ≠ .none

section Neutral

variable {t : LockTable LockId Task} {living : Task → Prop} {k : Kernel ListQueues}
  {i : Task}

/-- A change of a PCB that does not free it. -/
theorem Locks.setPcb (h : Locks t living k) {p : Pcb}
    (hp : p.status = .none → (k.pcb i).status = .none ∨ ¬ living i) :
    Locks t living (k.setPcb i p) := by
  refine ⟨h.1, fun j hj => ?_⟩
  rcases eq_or_ne j i with rfl | hne
  · rw [Kernel.setPcb_pcb_self]
    intro hs
    rcases hp hs with hs | hn
    · exact h.2 j hj hs
    · exact hn hj
  · rw [Kernel.setPcb_pcb_of_ne hne]
    exact h.2 j hj

theorem lockTable_woken {q : QueueId} (hi : k.queues.owner i = some q)
    (hq : ∀ l, q ≠ .block (.lock l)) : (k.woken q i hi).lockTable = k.lockTable := by
  refine LockTable.ext rfl ?_
  funext l
  exact Kernel.woken_items_of_ne hi (Ne.symm (hq l)) (by simp)

theorem Locks.woken (h : Locks t living k) {q : QueueId} (hi : k.queues.owner i = some q)
    (hq : ∀ l, q ≠ .block (.lock l)) : Locks t living (k.woken q i hi) := by
  refine ⟨(lockTable_woken hi hq).trans h.1, fun j hj => ?_⟩
  rcases eq_or_ne j i with rfl | hne
  · rw [Kernel.woken_pcb_self]
    simp
  · rw [Kernel.woken_pcb_of_ne hi hne]
    exact h.2 j hj

theorem Locks.enqueued (h : Locks t living k) {q : QueueId} {s : TaskStatus}
    (hi : k.queues.owner i = none) (hq : ∀ l, q ≠ .block (.lock l)) (hs : s ≠ .none) :
    Locks t living (k.enqueued q i s hi) := by
  have htable : (k.enqueued q i s hi).lockTable = k.lockTable := by
    refine LockTable.ext rfl ?_
    funext l
    exact (Kernel.enqueued_items (s := s) hi _).trans (if_neg (Ne.symm (hq l)))
  refine ⟨htable.trans h.1, fun j hj => ?_⟩
  · rcases eq_or_ne j i with rfl | hne
    · rw [Kernel.enqueued_pcb_self]
      exact hs
    · rw [Kernel.enqueued_pcb_of_ne hi hne]
      exact h.2 j hj

theorem Locks.dispatched (h : Locks t living k) (hi : k.queues.owner i = some .ready) :
    Locks t living (k.dispatched i hi) := by
  have htable : (k.dispatched i hi).lockTable = k.lockTable := by
    refine LockTable.ext rfl ?_
    funext l
    exact (Kernel.taken_items hi (.block (.lock l))).trans (if_neg (by simp))
  refine ⟨htable.trans h.1, fun j hj => ?_⟩
  · rcases eq_or_ne j i with rfl | hne
    · rw [Kernel.dispatched_pcb_self]
      simp
    · rw [Kernel.dispatched_pcb_of_ne hi hne]
      exact h.2 j hj

theorem Locks.dispatch (h : Locks t living k) : Safe k.dispatch (Locks t living) :=
  Kernel.dispatch_rule fun _ _ hitems => h.dispatched (Lists.owner_of_cons hitems)

theorem Locks.checkSleeping (h : Locks t living k) : Safe k.checkSleeping (Locks t living) :=
  Kernel.checkSleeping_rule (fun _ _ hi hk => hk.woken hi (by simp)) h

theorem Locks.wakeWaiting (h : Locks t living k) (pid : Int) :
    Safe (k.wakeWaiting pid) (Locks t living) :=
  Kernel.wakeWaiting_rule (fun _ _ hi hk _ => hk.woken hi (by simp)) h

end Neutral

/-! ## The record of locks -/

section Record

variable {p : Pcb} {l : LockId} {j j' : Fin maxLock}

/-- The first slot that satisfies a test comes no later than a slot that
does. -/
theorem find?_finRange_le {f : Fin maxLock → Bool} {m : Fin maxLock}
    (hfind : (List.finRange maxLock).find? f = some m) (hj : f j = true) : m ≤ j := by
  by_contra hlt
  obtain ⟨_, as, bs, hsplit, has⟩ := List.find?_eq_some_iff_append.mp hfind
  have hsorted := List.pairwise_lt_finRange maxLock
  have hmem : j ∈ as ++ m :: bs := hsplit ▸ List.mem_finRange j
  rw [hsplit] at hsorted
  rcases List.mem_append.mp hmem with hin | hin
  · exact absurd hj (by simpa using has j hin)
  · rcases List.mem_cons.mp hin with rfl | hin
    · exact hlt le_rfl
    · have := (List.pairwise_cons.mp (List.pairwise_append.mp hsorted).2.1).1 j hin
      exact hlt this.le

/-- Dropping a lock that slot `j` holds leaves the slots after `j` alone. -/
theorem dropLock_after (hj : p.locksGot j = some l) (hlt : j < j') :
    (p.dropLock l).locksGot j' = p.locksGot j' := by
  unfold Pcb.dropLock
  split
  · rfl
  · rename_i m hfind
    have hle := find?_finRange_le hfind (j := j) (by simpa using hj)
    simp only
    rw [Function.update_of_ne (by omega)]

/-- Recording the lock again fills a slot up to `j`. -/
theorem recordLock_dropLock_after (hj : p.locksGot j = some l) (hlt : j < j') :
    ((p.dropLock l).recordLock l).locksGot j' = p.locksGot j' := by
  obtain ⟨m, hm, hempty⟩ : ∃ m ≤ j, (p.dropLock l).locksGot m = none := by
    unfold Pcb.dropLock
    split
    · rename_i hfind
      have := List.find?_eq_none.mp hfind j (List.mem_finRange j)
      simp [hj] at this
    · rename_i m hfind
      exact ⟨m, find?_finRange_le hfind (by simpa using hj), by simp⟩
  rw [← dropLock_after hj hlt]
  generalize p.dropLock l = p' at hempty
  unfold Pcb.recordLock
  split
  · rfl
  · rename_i f hfind
    have hle := find?_finRange_le hfind (j := m) (by simpa using hempty)
    simp only
    rw [Function.update_of_ne (by omega)]

end Record

/-! ## Release -/

section Release

variable {t : LockTable LockId Task} {living : Task → Prop} {k : Kernel ListQueues}
  {i : Task} {l : LockId}

theorem Locks.procGetLock (h : Locks t living k) (l : LockId) :
    Locks t living (k.procGetLock l) := by
  obtain ⟨g, hg⟩ := k.cur.recordLock_eq l
  rw [Kernel.procGetLock, hg]
  exact h.setPcb Or.inl

theorem Locks.procLoseLock (h : Locks t living k) (l : LockId) :
    Locks t living (k.procLoseLock l) := by
  obtain ⟨g, hg⟩ := k.cur.dropLock_eq l
  rw [Kernel.procLoseLock, hg]
  exact h.setPcb Or.inl

/-- The two ways of `do_mutex_lock_release`. -/
theorem doMutexLockRelease_cases (k : Kernel ListQueues) (l : LockId) :
    (k.queues.items (.block (.lock l)) = [] ∧
        k.doMutexLockRelease l = .ok ((k.procLoseLock l).setLockStatus l .unlocked)) ∨
      ∃ w rest, ∃ hw : ((k.procLoseLock l).procGetLock l).queues.owner w =
          some (.block (.lock l)),
        k.queues.items (.block (.lock l)) = w :: rest ∧
        k.doMutexLockRelease l =
          .ok (((k.procLoseLock l).procGetLock l).woken (.block (.lock l)) w hw) := by
  have hqueues : (k.procLoseLock l).queues = k.queues := rfl
  cases hitems : k.queues.items (.block (.lock l)) with
  | nil =>
    refine Or.inl ⟨rfl, ?_⟩
    simp only [Kernel.doMutexLockRelease, QueueOps.isEmpty, hqueues, hitems,
      List.isEmpty_nil, if_true]
  | cons w rest =>
    have hcons : ((k.procLoseLock l).procGetLock l).queues.items (.block (.lock l)) =
        w :: rest := hitems
    refine Or.inr ⟨w, rest, Lists.owner_of_cons hcons, rfl, ?_⟩
    simp only [Kernel.doMutexLockRelease, QueueOps.isEmpty, hqueues, hitems,
      List.isEmpty_cons]
    rw [if_neg (by decide)]
    exact Kernel.doUnblockOne_cons hcons

/-- `do_mutex_lock_release` releases the lock in the table. -/
theorem Locks.doMutexLockRelease (h : Locks t living k) (l : LockId) :
    Safe (k.doMutexLockRelease l) (Locks (t.release l) living) := by
  obtain ⟨rfl, hliving⟩ := h
  rcases doMutexLockRelease_cases k l with ⟨hnil, heq⟩ | ⟨w, rest, hw, hcons, heq⟩
  · rw [heq]
    refine ⟨?_, (Locks.procLoseLock ⟨rfl, hliving⟩ l).2⟩
    refine LockTable.ext ?_ ?_
    · funext m
      rw [LockTable.release_locked]
      rcases eq_or_ne m l with rfl | hm
      · simp [Kernel.lockTable, Kernel.setLockStatus, hnil]
      · simp [Kernel.lockTable, Kernel.setLockStatus, hm, Kernel.procLoseLock]
    · funext m
      rw [LockTable.release_queue]
      rcases eq_or_ne m l with rfl | hm
      · simp [Kernel.lockTable, Kernel.setLockStatus, Kernel.procLoseLock, hnil]
      · simp [Kernel.lockTable, Kernel.setLockStatus, hm, Kernel.procLoseLock]
  · rw [heq]
    have hbefore := (Locks.procLoseLock (t := k.lockTable) ⟨rfl, hliving⟩ l).procGetLock l
    refine ⟨?_, fun j hj => ?_⟩
    · refine LockTable.ext ?_ ?_
      · funext m
        rw [LockTable.release_locked]
        simp [Kernel.lockTable, Kernel.procLoseLock, Kernel.procGetLock, hcons]
        rfl
      · funext m
        rw [LockTable.release_queue]
        rcases eq_or_ne m l with rfl | hm
        · rw [if_pos rfl]
          refine (Kernel.woken_items_self hw (by simp)).trans ?_
          simp [Kernel.procLoseLock, Kernel.procGetLock, Kernel.lockTable, hcons]
        · rw [if_neg hm]
          exact Kernel.woken_items_of_ne (p := .block (.lock m)) hw (by simpa using hm) (by simp)
    · rcases eq_or_ne j w with rfl | hne
      · rw [Kernel.woken_pcb_self]
        simp
      · rw [Kernel.woken_pcb_of_ne hw hne]
        exact hbefore.2 j hj

/-- Releasing a lock in slot `j` of a task leaves its later slots alone. -/
theorem doMutexLockRelease_after {j j' : Fin maxLock}
    (hj : (k.pcb i).locksGot j = some l) (hlt : j < j') :
    Safe (k.doMutexLockRelease l) fun k' =>
      (k'.pcb i).locksGot j' = (k.pcb i).locksGot j' := by
  have hlose : ((k.procLoseLock l).pcb i).locksGot j' = (k.pcb i).locksGot j' := by
    rcases eq_or_ne i k.currentRunning with rfl | hne
    · rw [Kernel.procLoseLock, Kernel.setPcb_pcb_self]
      exact dropLock_after hj hlt
    · rw [Kernel.procLoseLock, Kernel.setPcb_pcb_of_ne hne]
  rcases doMutexLockRelease_cases k l with ⟨_, heq⟩ | ⟨w, rest, hw, _, heq⟩
  · rw [heq]
    exact hlose
  · rw [heq]
    have hget : (((k.procLoseLock l).procGetLock l).pcb i).locksGot j' =
        (k.pcb i).locksGot j' := by
      rcases eq_or_ne i k.currentRunning with rfl | hne
      · have hcur : (k.procLoseLock l).cur = k.cur.dropLock l := by
          rw [Kernel.cur, Kernel.procLoseLock, Kernel.setPcb_currentRunning,
            Kernel.setPcb_pcb_self]
        rw [Kernel.procGetLock, hcur]
        refine Eq.trans ?_ (recordLock_dropLock_after hj hlt)
        exact congrArg (fun p : Pcb => p.locksGot j') (Kernel.setPcb_pcb_self _)
      · rw [Kernel.procGetLock]
        exact (congrArg (fun p : Pcb => p.locksGot j') (Kernel.setPcb_pcb_of_ne hne _)).trans
          hlose
    change ((Kernel.woken _ _ w hw).pcb i).locksGot j' = _
    rcases eq_or_ne i w with rfl | hne
    · rw [Kernel.woken_pcb_self]
      exact hget
    · rw [Kernel.woken_pcb_of_ne hw hne]
      exact hget

/-- Releasing a lock in slot `j` leaves the slots after `j` alone. -/
theorem doMutexLockRelease_rest {j : Fin maxLock} {rest : List (Fin maxLock)}
    (hj : (k.pcb i).locksGot j = some l) (hrest : ∀ j' ∈ rest, j < j') :
    Safe (k.doMutexLockRelease l) fun k' =>
      ∀ j' ∈ rest, (k'.pcb i).locksGot j' = (k.pcb i).locksGot j' := by
  rcases doMutexLockRelease_cases k l with ⟨_, heq⟩ | ⟨w, tail, hw, _, heq⟩
  · rw [heq]
    intro j' hj'
    exact (doMutexLockRelease_after hj (hrest j' hj')).of_ok heq
  · rw [heq]
    intro j' hj'
    exact (doMutexLockRelease_after hj (hrest j' hj')).of_ok heq

/-- The loop of `free_proc` releases the locks in the slots it has yet to
visit. -/
theorem Locks.releaseLocks (h : Locks t living k) (js : List (Fin maxLock))
    (hsorted : js.Pairwise (· < ·)) :
    Safe (Kernel.releaseLocks i js k)
      (Locks ((js.filterMap (k.pcb i).locksGot).foldl LockTable.release t) living) := by
  induction js generalizing k t with
  | nil => exact h
  | cons j rest ih =>
    obtain ⟨hfirst, hrest⟩ := List.pairwise_cons.mp hsorted
    rw [Kernel.releaseLocks]
    split
    · rename_i hnone
      rw [List.filterMap_cons_none hnone]
      exact ih h hrest
    · rename_i l hsome
      rw [List.filterMap_cons_some hsome, List.foldl_cons]
      refine ((h.doMutexLockRelease l).and (doMutexLockRelease_rest hsome hfirst)).bind ?_
      rintro k' ⟨hlocks, hkeep⟩
      have hcongr : ∀ j' ∈ rest, Function.update (k'.pcb i).locksGot j none j' =
          (k.pcb i).locksGot j' := by
        intro j' hj'
        have hne : j' ≠ j := (hfirst j' hj').ne'
        rw [Function.update_of_ne hne, hkeep j' hj']
      have hgo := ih (hlocks.setPcb (i := i)
        (p := { k'.pcb i with locksGot := Function.update (k'.pcb i).locksGot j none })
        Or.inl) hrest
      rw [Kernel.setPcb_pcb_self] at hgo
      rw [List.filterMap_congr hcongr] at hgo
      exact hgo

/-- `free_proc` releases the locks in the record and frees the task. -/
theorem Locks.freeProc (h : Locks t living k) (hi : ¬ living i) :
    Safe (k.freeProc i) fun k' =>
      Locks ((k.pcb i).recorded.foldl LockTable.release t) living k' ∧
        (k'.pcb i).status = .none := by
  simp only [Kernel.freeProc]
  split
  · trivial
  · have hmemory : Locks t living { k with toCore := k.toCore.freeMemory i } := h
    refine (hmemory.releaseLocks (i := i) _ (List.pairwise_lt_finRange maxLock)).bind ?_
    intro k₁ h₁
    refine (h₁.wakeWaiting _).bind fun k₂ h₂ => ?_
    refine ⟨h₂.setPcb fun _ => Or.inr hi, ?_⟩
    simp [Kernel.freePcb]

end Release

/-! ## Scheduling -/

section Scheduling

variable {t : LockTable LockId Task} {living : Task → Prop} {k : Kernel ListQueues}
  {i : Task}

theorem Locks.retire (h : Locks t living k) (hcons : Consistent none k)
    (hex : k.cur.status ≠ .exited) : Safe k.retire (Locks t living) := by
  simp only [Kernel.retire]
  split
  · rename_i hrun
    have howner : k.queues.owner k.currentRunning = none := by
      have hfits := hcons.fits k.currentRunning
      rw [show (k.pcb k.currentRunning).status = .running from hrun.2] at hfits
      exact hfits
    exact Kernel.enqueue_rule howner (h.enqueued howner (by simp) (by decide))
  · exact h

/-- A switch that frees nobody leaves the locks alone. -/
theorem Locks.doScheduler (h : Locks t living k) (hcons : Consistent none k)
    (hex : k.cur.status ≠ .exited) (sp : Nat) : Safe (k.doScheduler sp) (Locks t living) := by
  set k₀ := k.setPcb k.currentRunning { k.cur with kernelSp := sp } with hk₀
  have hcons₀ : Consistent none k₀ := hcons.setPcb _ rfl rfl rfl
  have hlocks₀ : Locks t living k₀ := h.setPcb Or.inl
  have hex₀ : k₀.cur.status ≠ .exited := by
    rw [hk₀, Kernel.cur, Kernel.setPcb_currentRunning, Kernel.setPcb_pcb_self]
    exact hex
  have hsleep : Safe k₀.checkSleeping fun k' =>
      Consistent none k' ∧ Locks t living k' ∧ k'.cur.status ≠ .exited := by
    refine Kernel.checkSleeping_rule ?_ ⟨hcons₀, hlocks₀, hex₀⟩
    rintro k' j hj ⟨hc, hl, hx⟩
    refine ⟨hc.woken hj, hl.woken hj (by simp), ?_⟩
    rw [Kernel.cur, Kernel.woken_currentRunning]
    rcases eq_or_ne k'.currentRunning j with heq | hne
    · rw [heq, Kernel.woken_pcb_self]
      simp
    · rw [Kernel.woken_pcb_of_ne hj hne]
      exact hx
  refine hsleep.bind fun k₁ h₁ => ?_
  exact (h₁.2.1.retire h₁.1 h₁.2.2).bind fun k₂ h₂ => h₂.dispatch

/-- A switch away from a task that killed itself frees the task. -/
theorem Locks.doScheduler_exited (h : Locks t living k) (hcons : Consistent none k)
    (hex : k.cur.status = .exited) (hdead : ¬ living k.currentRunning) (sp : Nat) :
    Safe (k.doScheduler sp) fun k' =>
      Locks (k.cur.recorded.foldl LockTable.release t) living k' ∧
        (k'.pcb k.currentRunning).status = .none := by
  set c := k.currentRunning with hc
  set k₀ := k.setPcb c { k.cur with kernelSp := sp } with hk₀
  have hpcb₀ : k₀.pcb c = { k.cur with kernelSp := sp } := Kernel.setPcb_pcb_self _
  have hcons₀ : Consistent none k₀ := hcons.setPcb _ rfl rfl rfl
  have hoff₀ : Off c .exited k₀ := by
    have hfits := hcons₀.fits c
    have hs : (k₀.pcb c).status = .exited := by rw [hpcb₀]; exact hex
    rw [hs] at hfits
    exact ⟨hfits, hs⟩
  have hsleep : Safe k₀.checkSleeping fun k' => Consistent none k' ∧ Locks t living k' ∧
      Off c .exited k' ∧ k'.currentRunning = c ∧ (k'.pcb c).recorded = k.cur.recorded := by
    refine Kernel.checkSleeping_rule ?_ ⟨hcons₀, h.setPcb Or.inl, hoff₀, rfl, ?_⟩
    · rintro k' j hj ⟨hc', hl, hoff, hcur, hrec⟩
      refine ⟨hc'.woken hj, hl.woken hj (by simp), (Off.closed c _).woken k' _ j hj hoff,
        hcur, ?_⟩
      rcases eq_or_ne c j with rfl | hne
      · rw [Kernel.woken_pcb_self]
        exact hrec
      · rw [Kernel.woken_pcb_of_ne hj hne]
        exact hrec
    · rw [hpcb₀]
      rfl
  refine hsleep.bind ?_
  rintro k₁ ⟨hcons₁, hlocks₁, hoff₁, hcur₁, hrec₁⟩
  have hretire : k₁.retire = k₁.freeProc c := by
    have hs : k₁.cur.status = .exited := by rw [Kernel.cur, hcur₁]; exact hoff₁.2
    rw [Kernel.retire, if_neg (by simp [hs]), if_pos hs, hcur₁]
  rw [hretire]
  refine ((hcons₁.weaken.freeProc hoff₁).and (hlocks₁.freeProc hdead)).bind ?_
  rintro k₂ ⟨⟨_, _, hoff₂, _⟩, hlocks₂, hnone⟩
  rw [hrec₁] at hlocks₂
  refine Kernel.dispatch_rule fun j rest hitems => ?_
  have hj := Lists.owner_of_cons hitems
  have hne : c ≠ j := by
    rintro rfl
    rw [hoff₂.1] at hj
    cases hj
  refine ⟨hlocks₂.dispatched hj, ?_⟩
  rw [Kernel.dispatched_pcb_of_ne hj hne]
  exact hnone

/-- A task that was just freed stays free over the switch. -/
theorem Off.doScheduler_freed (h : Off k.currentRunning .none k) (sp : Nat) :
    Safe (k.doScheduler sp) (Off k.currentRunning .none) := by
  set c := k.currentRunning with hc
  have hsleep : Safe (k.setPcb c { k.cur with kernelSp := sp }).checkSleeping
      fun k' => k'.currentRunning = c ∧ Off c .none k' := by
    refine ((closed_currentRunning c).and (Off.closed c .none)).checkSleeping ⟨rfl, h.1, ?_⟩
    rw [Kernel.setPcb_pcb_self]
    exact h.2
  refine hsleep.bind ?_
  rintro k₁ ⟨hcur, hoff⟩
  have hretire : k₁.retire = .ok k₁ := by
    have hs : k₁.cur.status = .none := by rw [Kernel.cur, hcur]; exact hoff.2
    rw [Kernel.retire, if_neg (by simp [hs]), if_neg (by simp [hs])]
  rw [hretire]
  refine Kernel.dispatch_rule fun j rest hitems => ?_
  have hj := Lists.owner_of_cons hitems
  have hne : c ≠ j := by
    rintro rfl
    rw [hoff.1] at hj
    cases hj
  refine ⟨?_, ?_⟩
  · rw [Kernel.dispatched_owner, if_neg hne]
    exact hoff.1
  · rw [Kernel.dispatched_pcb_of_ne hj hne]
    exact hoff.2

/-- The running task goes to a queue that is not a lock's. -/
theorem Locks.enqueue_current (h : Locks t living k) (hinv : SchedInv k) {q : QueueId}
    {s : TaskStatus} (hfits : Fits s (some q)) (hq : ∀ l, q ≠ .block (.lock l)) (sp : Nat) :
    Safe (k.enqueue q k.currentRunning s >>= fun k => k.doScheduler sp)
      (Locks t living) := by
  have howner := hinv.owner_current
  have hs : s ≠ .none ∧ s ≠ .exited := by
    refine ⟨?_, ?_⟩ <;> rintro rfl <;> cases hfits
  rw [Kernel.enqueue_eq howner]
  refine (h.enqueued howner hq hs.1).doScheduler
    (hinv.toConsistent.enqueued howner hfits hinv.current_live) ?_ sp
  rw [Kernel.cur]
  exact (congrArg Pcb.status (Kernel.enqueued_pcb_self howner)).trans_ne hs.2

end Scheduling

/-! ## Events -/

/-- The kernel after a move: the table is the one that the move makes, and
only the task that the move names has been freed. -/
def Moved (k : Kernel ListQueues) (m : LockMove) (k' : Kernel ListQueues) : Prop :=
  k'.lockTable = m.apply k.lockTable ∧
    (∀ p, k.alive p = true → m.dying ≠ some p → k'.alive p = true) ∧
    ∀ p, m.dying = some p → k'.alive p = false

section Events

variable {k k' : Kernel ListQueues} {i : Task}

/-- The tasks that are alive, but for one. -/
def livingBut (k : Kernel ListQueues) (d : Option Task) (p : Task) : Prop :=
  (k.pcb p).status ≠ .none ∧ d ≠ some p

theorem locks_self (k : Kernel ListQueues) (d : Option Task) :
    Locks k.lockTable (livingBut k d) k :=
  ⟨rfl, fun _ h => h.1⟩

theorem Locks.moved {m : LockMove} (h : Locks (m.apply k.lockTable) (livingBut k m.dying) k')
    (hdead : ∀ p, m.dying = some p → (k'.pcb p).status = .none) : Moved k m k' := by
  refine ⟨h.1, fun p hp hne => ?_, fun p hp => ?_⟩
  · exact decide_eq_true (h.2 p ⟨of_decide_eq_true hp, hne⟩)
  · exact decide_eq_false (by simpa using hdead p hp)

theorem Locks.moved_stay (h : Locks k.lockTable (livingBut k none) k') : Moved k .stay k' :=
  h.moved (m := .stay) (by rintro _ ⟨⟩)

/-- `free_proc` of a task in no queue is a death in the table. -/
theorem moved_death (hoff : k.queues.owner i = none)
    (h : Locks ((k.pcb i).recorded.foldl LockTable.release k.lockTable)
      (livingBut k (some i)) k')
    (hdead : (k'.pcb i).status = .none) : Moved k (k.toCore.deathOf i) k' := by
  have hremove : k.lockTable.remove i = k.lockTable := by
    refine LockTable.ext rfl ?_
    funext l
    refine List.erase_of_not_mem ?_
    rw [show k.lockTable.queue l = k.queues.items (.block (.lock l)) from rfl,
      k.queues.mem_iff, hoff]
    simp
  refine Locks.moved (m := k.toCore.deathOf i) ?_ ?_
  · have happly : (k.toCore.deathOf i).apply k.lockTable =
        (k.pcb i).recorded.foldl LockTable.release k.lockTable := by
      simp only [Core.deathOf, LockMove.apply, LockTable.death, hremove]
    rw [happly]
    exact h
  · rintro p hp
    obtain rfl : i = p := Option.some.inj hp
    exact hdead

theorem moved_switch (hinv : SchedInv k) (sp : Nat) :
    Safe (k.doScheduler sp) (Moved k
      (if k.cur.status = .exited then k.toCore.deathOf k.currentRunning else .stay)) := by
  split
  · rename_i hex
    refine ((locks_self k (some k.currentRunning)).doScheduler_exited hinv.toConsistent hex
      (fun h => h.2 rfl) sp).mono ?_
    rintro k' ⟨hlocks, hnone⟩
    exact moved_death hinv.owner_current hlocks hnone
  · rename_i hex
    exact ((locks_self k none).doScheduler hinv.toConsistent hex sp).mono fun _ h =>
      h.moved_stay

/-- The clock has no part in the move. -/
theorem Moved.of_updateTimeElapsed {count : Nat}
    (h : Moved (k.updateTimeElapsed count)
      (if (k.updateTimeElapsed count).cur.status = .exited then
        (k.updateTimeElapsed count).toCore.deathOf k.currentRunning else .stay) k') :
    Moved k (k.toCore.lockMove (.timer count)) k' := by
  have hcur : (k.updateTimeElapsed count).cur = k.pcb k.currentRunning := rfl
  have hdeath : (k.updateTimeElapsed count).toCore.deathOf k.currentRunning =
      k.toCore.deathOf k.currentRunning := rfl
  rw [hcur, hdeath] at h
  exact h

theorem moved_irqTimer (hinv : SchedInv k) (sp count : Nat) :
    Safe (k.irqTimer sp count) (Moved k (k.toCore.lockMove (.timer count))) := by
  have hinv' : SchedInv (k.updateTimeElapsed count) := hinv.congr rfl rfl rfl rfl
  rw [Kernel.irqTimer]
  exact (moved_switch hinv' sp).mono fun _ h => h.of_updateTimeElapsed

theorem moved_doSpawn (hinv : SchedInv k) (argc : Nat) :
    Safe (k.doSpawn argc) fun r => Moved k .stay r.2 := by
  simp only [Kernel.doSpawn]
  cases halloc : k.toCore.allocPcb with
  | none => exact (locks_self k none).moved_stay
  | some i =>
    obtain ⟨_, hnone⟩ := Core.allocPcb_eq_some halloc
    have howner : k.queues.owner i = none := by
      have hfits := hinv.fits i
      rw [hnone] at hfits
      exact hfits
    simp only
    split
    · rw [Kernel.setPcbReady_eq (k := { k with toCore := (k.toCore.newProcess argc).2.2 })
        howner]
      refine Locks.moved_stay ⟨?_, fun p hp => ?_⟩
      · refine LockTable.ext rfl ?_
        funext l
        simp [Kernel.lockTable, Kernel.born, Lists.pushed]
      · rcases eq_or_ne p i with rfl | hne
        · simp [Kernel.born]
        · simpa [Kernel.born, Core.newProcess, hne] using hp.1
    · trivial

theorem moved_doExit (hinv : SchedInv k) (sp : Nat) :
    Safe (k.doExit sp) (Moved k (k.toCore.deathOf k.currentRunning)) := by
  obtain ⟨hcons, hoff⟩ := hinv.exiting_current
  set k₁ := k.setPcb k.currentRunning { k.cur with status := .exited } with hk₁
  have hlocks : Locks k.lockTable (livingBut k (some k.currentRunning)) k₁ :=
    (locks_self k _).setPcb (by rintro ⟨⟩)
  have hrec : (k₁.pcb k.currentRunning).recorded = (k.pcb k.currentRunning).recorded := by
    rw [hk₁, Kernel.setPcb_pcb_self]
    rfl
  refine ((hcons.freeProc hoff).and (hlocks.freeProc fun h => h.2 rfl)).bind ?_
  rintro k₂ ⟨⟨hcons₂, hcur₂, hoff₂, _⟩, hlocks₂, _⟩
  rw [hrec] at hlocks₂
  have hcur₂' : k₂.currentRunning = k.currentRunning := hcur₂
  have hex₂ : k₂.cur.status ≠ .exited := by
    rw [Kernel.cur, hcur₂']
    exact hoff₂.2.trans_ne (by decide)
  have hfreed : Off k₂.currentRunning .none k₂ := by
    rw [hcur₂']
    exact hoff₂
  refine ((hlocks₂.doScheduler hcons₂ hex₂ sp).and (hfreed.doScheduler_freed sp)).mono ?_
  rintro k' ⟨hlocks', hoff'⟩
  rw [hcur₂'] at hoff'
  exact moved_death hinv.owner_current hlocks' hoff'.2

theorem moved_doKill (hinv : SchedInv k) {pid : Int}
    (hex : k.toCore.findPid pid = some k.currentRunning → k.cur.status ≠ .exited)
    (hpid : pid ≠ 0) :
    Safe (k.doKill pid) fun r => Moved k (k.toCore.lockMove (.kill pid)) r.2 := by
  simp only [Core.lockMove]
  rcases hinv.doKill_cases hex hpid with ⟨hfind, heq⟩ | ⟨hfind, _, hrun, heq⟩ |
    ⟨i, q, hq, hfind, _, _, hrun, _, hcons, hoff, heq⟩
  · rw [hfind, heq]
    exact (locks_self k none).moved_stay
  · rw [hfind, heq]
    simp only
    rw [if_pos hrun]
    exact Locks.moved_stay ((locks_self k none).setPcb (by rintro ⟨⟩))
  · rw [hfind, heq]
    simp only
    rw [if_neg hrun]
    have hremove : (k.killed i q hq).lockTable = k.lockTable.remove i := by
      refine LockTable.ext rfl ?_
      funext l
      refine (Kernel.taken_items (k := k.setPcb i { k.pcb i with status := .exited }) hq
        (.block (.lock l))).trans ?_
      split
      · rename_i hl
        rw [← hl]
        rfl
      · rename_i hl
        refine (List.erase_of_not_mem ?_).symm
        intro hmem
        have := (k.queues.mem_iff _ i).mp hmem
        exact hl (Option.some.inj (this.symm.trans hq))
    have hlocks : Locks (k.lockTable.remove i) (livingBut k (some i)) (k.killed i q hq) :=
      ⟨hremove, ((locks_self k (some i)).setPcb (i := i)
        (p := { k.pcb i with status := .exited }) fun h => absurd h (by simp)).2⟩
    refine (hlocks.freeProc fun h => h.2 rfl).bind ?_
    rintro k₂ ⟨hlocks₂, hnone⟩
    have hrec : ((k.killed i q hq).pcb i).recorded = (k.pcb i).recorded := by
      rw [Kernel.killed_pcb_self]
      rfl
    rw [hrec] at hlocks₂
    refine Locks.moved (m := k.toCore.deathOf i) hlocks₂ ?_
    rintro p hp
    obtain rfl : i = p := Option.some.inj hp
    exact hnone

theorem moved_doMutexLockAcquire (hinv : SchedInv k) (sp : Nat) (l : LockId) :
    Safe (k.doMutexLockAcquire sp l) (Moved k (k.toCore.lockMove (.acquire l))) := by
  simp only [Kernel.doMutexLockAcquire, Core.lockMove]
  split
  · rename_i hopen
    have hlocks := (locks_self k none).procGetLock l
    refine Locks.moved (m := .lock l k.currentRunning) ⟨?_, hlocks.2⟩
      (by rintro _ ⟨⟩)
    refine LockTable.ext ?_ rfl
    · funext m
      rcases eq_or_ne m l with rfl | hm
      · simp [Kernel.lockTable, Kernel.setLockStatus, LockMove.apply, LockTable.lock]
      · simp [Kernel.lockTable, Kernel.setLockStatus, LockMove.apply, LockTable.lock, hm,
          Kernel.procGetLock]
  · have howner := hinv.owner_current
    have henq := hinv.toConsistent.enqueued (q := .block (.lock l)) (s := .blocked) howner
      (Or.inr ⟨_, rfl⟩) hinv.current_live
    have hlocks : Locks (k.lockTable.block l k.currentRunning) (livingBut k none)
        (k.enqueued (.block (.lock l)) k.currentRunning .blocked howner) := by
      refine ⟨LockTable.ext rfl ?_, fun p hp => ?_⟩
      · funext m
        refine (Kernel.enqueued_items (s := .blocked) howner (.block (.lock m))).trans ?_
        rcases eq_or_ne m l with rfl | hm
        · simp [LockTable.block, Kernel.lockTable]
        · simp [LockTable.block, Kernel.lockTable, hm]
      · rcases eq_or_ne p k.currentRunning with rfl | hne
        · rw [Kernel.enqueued_pcb_self]
          simp
        · rw [Kernel.enqueued_pcb_of_ne howner hne]
          exact hp.1
    rw [Kernel.doBlock, Kernel.enqueue_eq howner]
    refine (hlocks.doScheduler henq ?_ sp).mono fun k' h' =>
      Locks.moved (m := .block l k.currentRunning) h' (by rintro _ ⟨⟩)
    rw [Kernel.cur]
    exact (congrArg Pcb.status (Kernel.enqueued_pcb_self howner)).trans_ne (by simp)

/-- Every event that leaves the block queues of locks alone makes its move. -/
theorem lockMove_step (hinv : SchedInv k) {e : Event} (hallowed : Allowed k.toCore e)
    (hdirect : e.call.touchesLockQueue = false) :
    Safe (kernelStep k e) (Moved k (k.toCore.lockMove e.call)) := by
  obtain ⟨sp, call⟩ := e
  obtain ⟨hexited, hkill⟩ := hallowed
  have hself := locks_self k none
  cases call with
  | spawn argc => exact (moved_doSpawn hinv argc).bind fun _ h => h
  | yield => exact moved_switch hinv sp
  | timer count => exact moved_irqTimer hinv sp count
  | sleep time =>
    simp only [kernelStep, Kernel.doSleep]
    generalize (k.getTimer + time) % 2 ^ 32 = sleepUntil
    have hinv' := hinv.setPcb_current (p := { k.cur with sleepUntil := sleepUntil }) rfl rfl
      rfl
    have hself' : Locks k.lockTable (livingBut k none)
        (k.setPcb k.currentRunning { k.cur with sleepUntil := sleepUntil }) :=
      hself.setPcb Or.inl
    exact (hself'.enqueue_current hinv' (q := .sleep) (s := .sleeping) rfl (by simp) sp).mono
      fun _ h => h.moved_stay
  | block queue =>
    refine (hself.enqueue_current hinv (q := .block queue) (s := .blocked)
      (Or.inr ⟨_, rfl⟩) ?_ sp).mono fun _ h => h.moved_stay
    rintro l hl
    obtain rfl : queue = .lock l := QueueId.block.inj hl
    cases hdirect
  | unblockOne queue =>
    refine Kernel.doUnblockOne_rule fun i rest hitems => ?_
    refine (hself.woken (Lists.owner_of_cons hitems) ?_).moved_stay
    rintro l hl
    obtain rfl : queue = .lock l := QueueId.block.inj hl
    cases hdirect
  | unblockAll queue =>
    refine (Kernel.doUnblockAll_rule (P := Locks k.lockTable (livingBut k none)) ?_ hself).mono
      fun _ h => h.1.moved_stay
    intro k' i rest hitems h
    refine h.woken _ ?_
    rintro l hl
    obtain rfl : queue = .lock l := QueueId.block.inj hl
    cases hdirect
  | waitpid pid =>
    simp only [kernelStep, Kernel.doWaitpid]
    split
    · have hinv' := hinv.setPcb_current (p := { k.cur with waitpid := pid }) rfl rfl rfl
      have hself' : Locks k.lockTable (livingBut k none)
          (k.setPcb k.currentRunning { k.cur with waitpid := pid }) := hself.setPcb Or.inl
      exact (hself'.enqueue_current hinv' (q := .waitpid) (s := .blocked) (Or.inl rfl)
        (by simp) sp).mono fun _ h => h.moved_stay
    · exact hself.moved_stay
  | exit => exact moved_doExit hinv sp
  | kill pid =>
    have hpid : pid ≠ 0 := by
      rintro rfl
      exact hkill rfl
    have hex : k.cur.status ≠ .exited := fun hs =>
      absurd (hexited hs) (by simp [Call.isSwitch])
    exact (moved_doKill hinv (fun _ => hex) hpid).bind fun _ h => h
  | acquire l => exact moved_doMutexLockAcquire hinv sp l
  | release l =>
    exact (hself.doMutexLockRelease l).mono fun _ h =>
      Locks.moved (m := .release l k.currentRunning) h (by rintro _ ⟨⟩)
  | barrierWait b =>
    have hinv' : SchedInv (k.setBarrierNow b ((k.barrier b).now + 1)) :=
      hinv.congr rfl rfl rfl rfl
    have hself' : Locks k.lockTable (livingBut k none)
        (k.setBarrierNow b ((k.barrier b).now + 1)) := hself
    simp only [kernelStep, Kernel.doBarrierWait]
    split
    · exact (hself'.enqueue_current hinv' (q := .block (.barrier b)) (s := .blocked)
        (Or.inr ⟨_, rfl⟩) (by simp) sp).mono fun _ h => h.moved_stay
    · refine (Kernel.doUnblockAll_rule (P := Locks k.lockTable (livingBut k none)) ?_
        hself').bind fun k' h => Locks.moved_stay (k := k) h.1
      intro k' i rest hitems h
      exact h.woken _ (by simp)
  | pageFault addr =>
    simp only [kernelStep, Kernel.pageFault]
    split
    · trivial
    · exact Locks.moved_stay hself

end Events

end MipsOs.Sched
