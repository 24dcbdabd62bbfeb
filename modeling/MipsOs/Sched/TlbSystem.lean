import MipsOs.Lib.Tlb
import MipsOs.Sched.PageTables

/-!
# The kernel and the TLB

The kernel together with the TLB and the register `EntryHi`.  Two handlers load
the TLB.  `TLBexception_handler_entry` in assembly runs when no entry matches,
and writes the pair of page table entries over a random entry, valid or not.
`TLB_Invalid_handler` and `do_TLB_Refill` in C fill the pair first, and probe
before they write.

The machine does what the handlers rely on: a refill exception is raised when no
entry matches, an invalid exception when the half that matches is not valid, and
both put the page pair of the address into `EntryHi` and keep its ASID.

`tlb_nodup_and_faults_resolved` is the result: two entries never match one
lookup, and after a handler in C the pair of the address is in the TLB, valid and
as in the page table of the running process.
-/

namespace MipsOs.Sched

open MipsOs.Lib MipsOs.Mm

/-! ## Registers -/

/-- The macro `ENTRYHI`. -/
def entryHi (r vpn2 asid : Nat) : Nat :=
  ((r &&& 0x3) <<< 62) ||| ((vpn2 &&& 0x7FFFFFF) <<< 13) ||| (asid &&& 0xff)

/-- The field `VPN2` of `EntryHi`. -/
def vpn2Field (hi : Nat) : Nat := (hi >>> 13) &&& 0x7FFFFFF

/-- The field `ASID` of `EntryHi`. -/
def asidField (hi : Nat) : Nat := hi &&& 0xff

/-- A `pid_t` in a register. -/
def pidWord (pid : Int) : Nat := (pid % 2 ^ 64).toNat

/-- The ASID of a process. -/
def asidOf (pid : Int) : Nat := (pid % 256).toNat

theorem asidField_eq (hi : Nat) : asidField hi = hi % 2 ^ 8 := by
  rw [asidField, show 0xff = 2 ^ 8 - 1 from rfl, and_mask]

theorem asidField_pidWord (pid : Int) : asidField (pidWord pid) = asidOf pid := by
  rw [asidField_eq, pidWord, asidOf]
  omega

theorem entryHi_eq (vpn2 asid : Nat) :
    entryHi 0 vpn2 asid = vpn2 % 2 ^ 27 * 2 ^ 13 + asid % 2 ^ 8 := by
  rw [entryHi, show 0x7FFFFFF = 2 ^ 27 - 1 from rfl, show 0xff = 2 ^ 8 - 1 from rfl, and_mask,
    and_mask]
  simp only [Nat.zero_and, Nat.zero_shiftLeft, Nat.zero_or]
  rw [← Nat.shiftLeft_add_eq_or_of_lt (by omega), Nat.shiftLeft_eq]

@[simp] theorem asidField_entryHi (vpn2 asid : Nat) :
    asidField (entryHi 0 vpn2 asid) = asidField asid := by
  rw [asidField_eq, asidField_eq, entryHi_eq]
  omega

@[simp] theorem vpn2Field_entryHi {vpn2 : Nat} (h : vpn2 < 2 ^ 27) (asid : Nat) :
    vpn2Field (entryHi 0 vpn2 asid) = vpn2 := by
  rw [vpn2Field, entryHi_eq, show 0x7FFFFFF = 2 ^ 27 - 1 from rfl, and_mask,
    Nat.shiftRight_eq_div_pow]
  omega

theorem vpn2_lt {addr : Nat} (h : addr < 2 ^ 32) : addr >>> 13 < 2 ^ 27 := by
  rw [Nat.shiftRight_eq_div_pow]
  omega

/-! ## The system -/

/-- The kernel, the TLB and the register `EntryHi`. -/
structure TlbSystem (n : Nat) where
  kernel : Kernel PtrQueues
  tlb : Tlb n
  entryHi : Nat

/-- An event of the kernel other than a page fault, or a TLB handler.  A handler
comes with the entry that `tlbwr` would choose. -/
inductive TlbEvent (n : Nat) where
  | kernel (e : Event)
  | refill (addr pteBase : Nat) (random : Fin n)
  | invalid (addr : Nat) (random : Fin n)
  | tlbRefill (addr : Nat) (random : Fin n)

/-- The call is a page fault. -/
def Call.isFault : Call → Bool
  | .pageFault _ => true
  | _ => false

namespace TlbSystem

variable {n : Nat}

/-- The machine puts the page pair of the address into `EntryHi`. -/
def raise (s : TlbSystem n) (addr : Nat) : TlbSystem n :=
  { s with entryHi := Sched.entryHi 0 (addr >>> 13) s.entryHi }

/-- The instruction `tlbwr`. -/
def tlbwr (s : TlbSystem n) (random : Fin n) (entryLo0 entryLo1 : Nat) : TlbSystem n :=
  { s with
    tlb := s.tlb.write random ⟨vpn2Field s.entryHi, asidField s.entryHi, entryLo0, entryLo1⟩ }

/-- `TLBexception_handler_entry` -/
def tlbExceptionHandlerEntry (s : TlbSystem n) (badvaddr context : Nat) (random : Fin n) :
    Option (TlbSystem n) :=
  let mm := s.kernel.mm
  if mm.currentPgd = 0 then
    none
  else
    let pt := mm.tables mm.currentPgd (refillDirOffset badvaddr / 8)
    let entryLo0 := mm.tables pt (refillTableOffset context / 8)
    let entryLo1 := mm.tables pt ((refillTableOffset context + 8) / 8)
    some (s.tlbwr random entryLo0 entryLo1)

/-- `do_TLB_Refill`: fill the pair, probe, and write over the entry that matches
or over a random one. -/
def doTlbRefill (s : TlbSystem n) (addr : Nat) (random : Fin n) : Option (TlbSystem n) :=
  (memoryRun s.kernel ⟨0, .pageFault addr⟩).map fun k =>
    let pt := k.mm.tables k.mm.currentPgd ((addr >>> 22) &&& 0x3ff)
    let ptOffset := (addr >>> 12) &&& 0x3fe
    let hi := Sched.entryHi 0 (addr >>> 13) (pidWord k.currentPid)
    { kernel := k
      tlb := s.tlb.replace ⟨vpn2Field hi, asidField hi, k.mm.tables pt ptOffset,
        k.mm.tables pt (ptOffset + 1)⟩ random
      entryHi := hi }

/-- `TLB_Invalid_handler` -/
def tlbInvalidHandler (s : TlbSystem n) (badvaddr : Nat) (random : Fin n) :
    Option (TlbSystem n) :=
  s.doTlbRefill badvaddr random

/-- No entry matches the address. -/
def Misses (s : TlbSystem n) (addr : Nat) : Prop :=
  ∀ i, ¬ (s.tlb i).Matches (addr >>> 13) (asidField s.entryHi)

/-- The half that matches the address is not valid. -/
def HitsInvalid (s : TlbSystem n) (addr : Nat) : Prop :=
  ∃ i, (s.tlb i).Matches (addr >>> 13) (asidField s.entryHi) ∧
    ¬ pteValid ((s.tlb i).lo (Fin.ofNat 2 (addr >>> 12)))

/-- The events that can happen.  Addresses have 32 bits. -/
def Raised (s : TlbSystem n) : TlbEvent n → Prop
  | .kernel e => e.call ≠ .kill 0 ∧ e.call.isFault = false
  | .refill addr _ _ => addr < 2 ^ 32 ∧ s.Misses addr
  | .invalid addr _ => addr < 2 ^ 32 ∧ s.HitsInvalid addr
  | .tlbRefill addr _ => addr < 2 ^ 32

instance decidableRaised (s : TlbSystem n) (e : TlbEvent n) : Decidable (s.Raised e) :=
  match e with
  | .kernel _ => inferInstanceAs (Decidable (_ ∧ _))
  | .refill addr _ _ =>
    inferInstanceAs (Decidable (_ ∧ ∀ i, ¬ (s.tlb i).Matches (addr >>> 13) _))
  | .invalid addr _ =>
    inferInstanceAs (Decidable (_ ∧ ∃ i, (s.tlb i).Matches (addr >>> 13) _ ∧ ¬ pteValid _))
  | .tlbRefill _ _ => inferInstanceAs (Decidable (_ < _))

/-- One event.  `do_scheduler` loads `current_pid` into `EntryHi`. -/
def step (s : TlbSystem n) : TlbEvent n → Option (TlbSystem n)
  | .kernel e =>
    (memoryRun s.kernel e).map fun k =>
      { s with
        kernel := k
        entryHi := if s.kernel.toCore.schedules e.call then pidWord k.currentPid else s.entryHi }
  | .refill addr pteBase random =>
    (s.raise addr).tlbExceptionHandlerEntry addr (contextOf pteBase addr) random
  | .invalid addr random => (s.raise addr).tlbInvalidHandler addr random
  | .tlbRefill addr random => s.doTlbRefill addr random

/-- The system after boot: `init_TLB` clears no entry. -/
def boot (barrier : BarrierId → Barrier) (tables : Nat → Nat → Nat) (tlb : Tlb n)
    (entryHi : Nat) : TlbSystem n :=
  { kernel := bootKernel barrier tables, tlb := tlb, entryHi := entryHi }

/-- The entry of the running process for the page pair of an address. -/
def loaded (s : TlbSystem n) (addr : Nat) : TlbEntry where
  vpn2 := addr >>> 13
  asid := asidOf s.kernel.currentPid
  lo0 := s.kernel.toCore.pteOf s.kernel.currentRunning (addr >>> 13) 0
  lo1 := s.kernel.toCore.pteOf s.kernel.currentRunning (addr >>> 13) 1

/-- One entry matches the address, and its halves are valid and as in the page
table of the running process. -/
def Resolved (s : TlbSystem n) (addr : Nat) : Prop :=
  ∃ i, (∀ j, (s.tlb j).Matches (addr >>> 13) (asidField s.entryHi) ↔ j = i) ∧
    ∀ half, pteValid ((s.tlb i).lo half) ∧
      (s.tlb i).lo half = s.kernel.toCore.pteOf s.kernel.currentRunning (addr >>> 13) half

/-! ## The invariant -/

/-- The kernel follows a list kernel, and `EntryHi` has the ASID of the running process. -/
structure Inv (s : TlbSystem n) (a : Kernel ListQueues) : Prop where
  follows : Follows a s.kernel
  kernel : KernelInv a
  asid : s.kernel.mm.currentPgd ≠ 0 → asidField s.entryHi = asidOf s.kernel.currentPid

section Steps

variable {s s' : TlbSystem n} {a a' : Kernel ListQueues} {addr pteBase : Nat} {random : Fin n}

/-- The exception leaves the ASID. -/
theorem Inv.raise (h : s.Inv a) (addr : Nat) : (s.raise addr).Inv a where
  follows := h.follows
  kernel := h.kernel
  asid hpgd := by
    rw [TlbSystem.raise, asidField_entryHi]
    exact h.asid hpgd

/-- The page table of the running process is behind `current_pgd`. -/
theorem pteOf_current {k : Kernel PtrQueues} (hfollows : Follows a k) (h : KernelInv a)
    (vpn2 : Nat) (half : Fin 2) :
    k.toCore.pteOf k.currentRunning vpn2 half = k.mm.pte k.mm.currentPgd vpn2 half := by
  rw [hfollows.core, Core.pteOf, ← h.current_space]

/-- The words of the running process are not global. -/
theorem loaded_not_global (hfollows : Follows a s.kernel) (h : KernelInv a)
    (hpgd : s.kernel.mm.currentPgd ≠ 0) (addr : Nat) : (s.loaded addr).isGlobal = false := by
  rw [hfollows.core] at hpgd
  have hlives := h.spaces.current_lives h.current_space h.toSchedInv hpgd
  refine TlbEntry.isGlobal_eq_false ?_
  rw [loaded, hfollows.core]
  rcases h.plain _ hlives (addr >>> 13) 0 with hzero | hfilled
  · rw [hzero]
    rfl
  · exact hfilled.even

/-- The handler in assembly loads the pair of the address over a random entry. -/
theorem Inv.refill (h : s.Inv a) (haddr : addr < 2 ^ 32)
    (hstep : s.step (.refill addr pteBase random) = some s') :
    s.kernel.mm.currentPgd ≠ 0 ∧
      s' = { s.raise addr with tlb := s.tlb.write random (s.loaded addr) } := by
  simp only [step, tlbExceptionHandlerEntry] at hstep
  split at hstep
  · cases hstep
  · rename_i hpgd
    have hpgd' : s.kernel.mm.currentPgd ≠ 0 := hpgd
    refine ⟨hpgd', ?_⟩
    obtain rfl := Option.some.inj hstep
    have hentry : (⟨vpn2Field (s.raise addr).entryHi, asidField (s.raise addr).entryHi,
        s.kernel.mm.tables (s.kernel.mm.tables s.kernel.mm.currentPgd (refillDirOffset addr / 8))
          (refillTableOffset (contextOf pteBase addr) / 8),
        s.kernel.mm.tables (s.kernel.mm.tables s.kernel.mm.currentPgd (refillDirOffset addr / 8))
          ((refillTableOffset (contextOf pteBase addr) + 8) / 8)⟩ : TlbEntry) =
        s.loaded addr := by
      have hindex : (8 * tableIndex (addr >>> 13) + 8) / 8 = tableIndex (addr >>> 13) + 1 := by
        omega
      rw [loaded, pteOf_current h.follows h.kernel, pteOf_current h.follows h.kernel,
        ← h.asid hpgd', refillDirOffset_eq, refillTableOffset_eq, hindex,
        Nat.mul_div_cancel_left _ (by omega), Nat.mul_div_cancel_left _ (by omega),
        TlbSystem.raise, asidField_entryHi, vpn2Field_entryHi (vpn2_lt haddr)]
      rfl
    rw [tlbwr]
    exact congrArg (fun e => { s.raise addr with tlb := s.tlb.write random e }) hentry

/-- What the handlers in C leave. -/
structure Handled (s : TlbSystem n) (addr : Nat) (random : Fin n) (s' : TlbSystem n)
    (a a' : Kernel ListQueues) : Prop where
  follows : Follows a' s'.kernel
  kept : Kept a a' ⟨0, .pageFault addr⟩
  pgd : s'.kernel.mm.currentPgd ≠ 0
  entryHi_asid : asidField s'.entryHi = asidOf s'.kernel.currentPid
  tlb : s'.tlb = s.tlb.replace (s'.loaded addr) random
  valid : ∀ half, pteValid (s'.kernel.toCore.pteOf s'.kernel.currentRunning (addr >>> 13) half)

/-- The handlers in C fill the pair of the address, and load it over the entry
that matches. -/
theorem Inv.handled (h : s.Inv a) (haddr : addr < 2 ^ 32)
    (hstep : s.doTlbRefill addr random = some s') : ∃ a', s.Handled addr random s' a a' := by
  obtain ⟨k, hrun, rfl⟩ := Option.map_eq_some_iff.mp hstep
  obtain ⟨a', hfollows', hkept⟩ := h.kernel.follow h.follows (by simp) hrun
  obtain ⟨hkernel, hrange⟩ := Option.filter_eq_some_iff.mp hrun
  have hk : s.kernel.mm.currentPgd ≠ 0 ∧
      k = { s.kernel with mm := s.kernel.mm.doTlbRefill addr } := by
    have hok := kernelRun_eq_some.mp hkernel
    simp only [kernelStep, Kernel.pageFault] at hok
    split at hok
    · cases hok
    · rename_i hpgd
      exact ⟨hpgd, (Except.ok.inj hok).symm⟩
  obtain ⟨hpgd, hmm⟩ := hk
  have hpgd' : k.mm.currentPgd ≠ 0 := by
    rw [hmm]
    show (s.kernel.mm.doTlbRefill addr).currentPgd ≠ 0
    rw [doTlbRefill_currentPgd]
    exact hpgd
  have hword : ∀ half, k.toCore.pteOf k.currentRunning (addr >>> 13) half =
      k.mm.pte k.mm.currentPgd (addr >>> 13) half := fun half =>
    pteOf_current hfollows' hkept.inv _ half
  refine ⟨a', hfollows', hkept, hpgd', ?_, ?_, fun half => ?_⟩
  · simp only [asidField_entryHi]
    exact asidField_pidWord _
  · simp only [asidField_entryHi, asidField_pidWord, vpn2Field_entryHi (vpn2_lt haddr), loaded,
      hword, pgdOffset_eq, ptOffset_eq]
    rfl
  · show pteValid (k.toCore.pteOf k.currentRunning (addr >>> 13) half)
    rw [hword half, hmm]
    show pteValid ((s.kernel.mm.doTlbRefill addr).pte (s.kernel.mm.doTlbRefill addr).currentPgd
      (addr >>> 13) half)
    rw [doTlbRefill_currentPgd]
    have hcore : s.kernel.mm = a.mm := congrArg Core.mm h.follows.core
    have hr : (s.kernel.mm.doTlbRefill addr).InRange := by
      rw [hmm] at hrange
      exact of_decide_eq_true hrange
    rw [hcore] at hpgd hr ⊢
    have hlives := h.kernel.spaces.current_lives h.kernel.current_space h.kernel.toSchedInv hpgd
    have hmem : a.mm.currentPgd ∈ a.toCore.livePgds none :=
      mem_livePgds.mpr ⟨_, hlives, h.kernel.current_space.symm⟩
    exact (h.kernel.spaces.owns.grows_doTlbRefill hmem hr).2 half

/-- An event of the kernel. -/
theorem Inv.kernelEvent (h : s.Inv a) {e : Event} (hkill : e.call ≠ .kill 0)
    (hstep : s.step (.kernel e) = some s') :
    ∃ a', Follows a' s'.kernel ∧ Kept a a' e ∧ s'.tlb = s.tlb ∧
      (s'.kernel.mm.currentPgd ≠ 0 → asidField s'.entryHi = asidOf s'.kernel.currentPid) := by
  obtain ⟨k, hrun, rfl⟩ := Option.map_eq_some_iff.mp hstep
  obtain ⟨a', hfollows', hkept⟩ := h.kernel.follow h.follows hkill hrun
  refine ⟨a', hfollows', hkept, rfl, fun hpgd => ?_⟩
  show asidField (if s.kernel.toCore.schedules e.call then pidWord k.currentPid else s.entryHi) =
    asidOf k.currentPid
  cases hsched : s.kernel.toCore.schedules e.call with
  | true => exact asidField_pidWord _
  | false =>
    have hcore := h.follows.core
    rw [hcore] at hsched
    obtain ⟨_, hpid, hpgd'⟩ := hkept.same hsched
    have hcore' := hfollows'.core
    rw [if_neg (by simp), hcore', hpid, ← hcore]
    refine h.asid ?_
    have hpgd₁ : k.toCore.mm.currentPgd ≠ 0 := hpgd
    rw [hcore', hpgd', ← hcore] at hpgd₁
    exact hpgd₁

theorem Handled.inv (hh : s.Handled addr random s' a a') : s'.Inv a' where
  follows := hh.follows
  kernel := hh.kept.inv
  asid _ := hh.entryHi_asid

theorem Handled.nodup (hnodup : s.tlb.Nodup) (hh : s.Handled addr random s' a a') :
    s'.tlb.Nodup := by
  rw [hh.tlb]
  exact hnodup.replace (loaded_not_global hh.follows hh.kept.inv hh.pgd addr) _

theorem Inv.step (h : s.Inv a) {e : TlbEvent n} (hraised : s.Raised e)
    (hstep : s.step e = some s') : ∃ a', s'.Inv a' ∧ (s.tlb.Nodup → s'.tlb.Nodup) := by
  cases e with
  | kernel e =>
    obtain ⟨a', hfollows', hkept, htlb, hasid⟩ := h.kernelEvent hraised.1 hstep
    rw [htlb]
    exact ⟨a', ⟨hfollows', hkept.inv, hasid⟩, id⟩
  | refill addr pteBase random =>
    obtain ⟨hpgd, rfl⟩ := h.refill hraised.1 hstep
    have hraise := h.raise addr
    refine ⟨a, ⟨hraise.follows, hraise.kernel, hraise.asid⟩, fun hnodup => ?_⟩
    refine hnodup.write (loaded_not_global h.follows h.kernel hpgd addr) fun j _ => ?_
    have hmiss := hraised.2 j
    rw [h.asid hpgd] at hmiss
    exact hmiss
  | invalid addr random =>
    obtain ⟨a', hh⟩ := (h.raise addr).handled hraised.1 hstep
    exact ⟨a', hh.inv, fun hnodup => hh.nodup (s := s.raise addr) hnodup⟩
  | tlbRefill addr random =>
    obtain ⟨a', hh⟩ := h.handled hraised hstep
    exact ⟨a', hh.inv, fun hnodup => hh.nodup hnodup⟩

/-- The pair of the address is in the TLB after a handler in C. -/
theorem Handled.resolved (hnodup : s.tlb.Nodup) (hh : s.Handled addr random s' a a') :
    s'.Resolved addr := by
  obtain ⟨i, hi⟩ := Tlb.replace_self s.tlb (s'.loaded addr) random
  rw [← hh.tlb] at hi
  have hmatch : (s'.tlb i).Matches (addr >>> 13) (asidField s'.entryHi) := by
    rw [hi, hh.entryHi_asid]
    exact ⟨rfl, Or.inr rfl⟩
  refine ⟨i, fun j => ⟨fun hj => hh.nodup hnodup j i _ _ hj hmatch, ?_⟩, fun half => ?_⟩
  · rintro rfl
    exact hmatch
  · have hlo : (s'.tlb i).lo half =
        s'.kernel.toCore.pteOf s'.kernel.currentRunning (addr >>> 13) half := by
      rw [hi]
      revert half
      exact Fin.forall_fin_two.mpr ⟨rfl, rfl⟩
    rw [hlo]
    exact ⟨hh.valid half, rfl⟩

end Steps

theorem boot_inv (barrier : BarrierId → Barrier) (tables : Nat → Nat → Nat) (tlb : Tlb n)
    (entryHi : Nat) : (boot barrier tables tlb entryHi).Inv (bootLists barrier tables) where
  follows := bootLists_follows barrier tables
  kernel := bootLists_kernelInv barrier tables
  asid hpgd := absurd rfl hpgd

theorem reaches_inv {barrier : BarrierId → Barrier} {tables : Nat → Nat → Nat} {tlb : Tlb n}
    {entryHi : Nat} {s : TlbSystem n}
    (h : Reaches step Raised (boot barrier tables tlb entryHi) s) :
    ∃ a, s.Inv a ∧ (tlb.Nodup → s.tlb.Nodup) := by
  refine h.invariant (fun s => ∃ a, s.Inv a ∧ (tlb.Nodup → s.tlb.Nodup))
    ⟨_, boot_inv barrier tables tlb entryHi, id⟩ ?_
  rintro s e s' ⟨a, hinv, hnodup⟩ hraised hstep
  obtain ⟨a', hinv', hkeeps⟩ := hinv.step hraised hstep
  exact ⟨a', hinv', fun h₀ => hkeeps (hnodup h₀)⟩

/-- The address that a handler in C is called for. -/
def handles : TlbEvent n → Option Nat
  | .invalid addr _ => some addr
  | .tlbRefill addr _ => some addr
  | _ => none

/-- In every state that is reached no two entries of the TLB match one lookup,
and every handler in C leaves the pair of its address in the TLB, in one entry,
valid, and as in the page table of the running process. -/
theorem tlb_nodup_and_faults_resolved (barrier : BarrierId → Barrier)
    (tables : Nat → Nat → Nat) {tlb : Tlb n} (hnodup : tlb.Nodup) (entryHi : Nat)
    {s : TlbSystem n} (h : Reaches step Raised (boot barrier tables tlb entryHi) s) :
    s.tlb.Nodup ∧ ∀ e s' addr, handles e = some addr → s.Raised e → s.step e = some s' →
      s'.Resolved addr := by
  obtain ⟨a, hinv, hkeeps⟩ := reaches_inv h
  have hnodup' := hkeeps hnodup
  refine ⟨hnodup', fun e s' addr haddr hraised hstep => ?_⟩
  cases e with
  | invalid addr' random =>
    obtain rfl := Option.some.inj haddr
    obtain ⟨a', hh⟩ := (hinv.raise addr').handled hraised.1 hstep
    exact hh.resolved (s := s.raise addr') hnodup'
  | tlbRefill addr' random =>
    obtain rfl := Option.some.inj haddr
    obtain ⟨a', hh⟩ := hinv.handled hraised hstep
    exact hh.resolved hnodup'
  | _ => cases haddr

/-- A TLB with 64 entries for different page pairs. -/
def blankTlb : Tlb 64 := fun i => ⟨i, 0, 0, 0⟩

theorem blankTlb_nodup : blankTlb.Nodup := by
  rintro i j vpn2 asid ⟨hi, _⟩ ⟨hj, _⟩
  exact Fin.ext (hi.trans hj.symm)

/-- The first access of a process loads the empty pair of the shared page table,
and the second exception fills it. -/
theorem blankKernel_second_fault_resolved :
    ∃ s s' : TlbSystem 64, s.step (.invalid 0x10000 5) = some s' ∧ s.tlb.Nodup ∧
      s'.Resolved 0x10000 := by
  have hrun : ((runIf step Raised (boot (fun _ => ⟨0, 0⟩) (fun _ _ => 0) blankTlb 0)
      [.kernel ⟨0, .spawn 0⟩, .kernel ⟨0, .timer 5⟩, .refill 0x10000 0 40]).bind fun s =>
        if s.Raised (.invalid 0x10000 5) then s.step (.invalid 0x10000 5) else none).isSome =
      true := by
    decide +kernel
  obtain ⟨s', hs'⟩ := Option.isSome_iff_exists.mp hrun
  obtain ⟨s, hs, hlast⟩ := Option.bind_eq_some_iff.mp hs'
  split at hlast
  · rename_i hraised
    obtain ⟨hnodup, hresolved⟩ :=
      tlb_nodup_and_faults_resolved _ _ blankTlb_nodup 0 (reaches_of_runIf hs)
    exact ⟨s, s', hlast, hnodup, hresolved _ _ _ rfl hraised hlast⟩
  · cases hlast

end TlbSystem

end MipsOs.Sched
