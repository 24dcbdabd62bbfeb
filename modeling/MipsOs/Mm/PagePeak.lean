import MipsOs.Lib.Run
import MipsOs.Mm.Memory

/-!
# How many pages a pool carves

A run of `alloc_page` and `free_page` on one pool, in which only allocated
pages are freed.  Next to the pool the state keeps the pages that are
allocated, the number of pages that `free_page` has dropped because the free
stack was full, and two maxima over the run.

A pool carves a page only when its free stack is empty.  So the number of
carved pages is the largest number of pages that were allocated or dropped at
the same time, and it is the largest number of allocated pages as long as no
page is dropped.
-/

namespace MipsOs.Mm

open MipsOs.Lib

/-- A pool, and what the run has done: `peak` is the largest size of `live`,
and `high` the largest number of pages that were live or lost. -/
structure PoolRun where
  ctrl : PageCtrl
  live : Finset Nat
  lost : Nat
  peak : Nat
  high : Nat
  deriving DecidableEq

/-- A call of `alloc_page` or of `free_page`. -/
inductive PoolOp where
  | alloc
  | free (addr : Nat)

namespace PoolRun

/-- Record the numbers of pages. -/
def record (s : PoolRun) : PoolRun :=
  { s with peak := max s.peak s.live.card, high := max s.high (s.live.card + s.lost) }

/-- One call, with the numbers of pages. -/
def step (s : PoolRun) : PoolOp → Option PoolRun
  | .alloc =>
    let (addr, ctrl) := allocPage s.ctrl
    some { s with ctrl := ctrl, live := insert addr s.live }.record
  | .free addr =>
    let ctrl := freePage s.ctrl addr
    let lost := if s.ctrl.freePages.length < maxFreePage then s.lost else s.lost + 1
    some { s with ctrl := ctrl, live := s.live.erase addr, lost := lost }.record

/-- A new pool. -/
def start (startAddr pageSize : Nat) : PoolRun where
  ctrl := pageCtrlInit startAddr pageSize
  live := ∅
  lost := 0
  peak := 0
  high := 0

/-- Only allocated pages are freed. -/
def FreesLive (s : PoolRun) : PoolOp → Prop
  | .alloc => True
  | .free addr => addr ∈ s.live

/-- Only allocated pages are freed, and the pool does not carve beyond the end
of the address space. -/
def Ok (s : PoolRun) : PoolOp → Prop
  | .alloc => s.ctrl.freePages = [] → s.ctrl.nextPageAddr + s.ctrl.pageSize < 2 ^ 64
  | .free addr => addr ∈ s.live

instance (s : PoolRun) : (op : PoolOp) → Decidable (s.FreesLive op)
  | .alloc => isTrue trivial
  | .free addr => inferInstanceAs (Decidable (addr ∈ s.live))

instance (s : PoolRun) : (op : PoolOp) → Decidable (s.Ok op)
  | .alloc => inferInstanceAs (Decidable (_ → _))
  | .free addr => inferInstanceAs (Decidable (addr ∈ s.live))

/-- `(next_page_addr - start_addr) / page_size` -/
def carved (s : PoolRun) : Nat :=
  (2 ^ 64 + s.ctrl.nextPageAddr - s.ctrl.startAddr) % 2 ^ 64 / s.ctrl.pageSize

end PoolRun

/-! ## The invariant -/

/-- A pool that has not come to the end of the address space is regular. -/
theorem regular_of_lt {startAddr pageSize n : Nat} (hpos : 0 < pageSize)
    (hdvd : pageSize ∣ startAddr) (hlt : startAddr + n * pageSize < 2 ^ 64) :
    Regular startAddr pageSize (n + 1) := by
  have hpage : ∀ k < n + 1, carvedPage startAddr pageSize k = startAddr + k * pageSize := by
    intro k hk
    have hmul : k * pageSize ≤ n * pageSize := Nat.mul_le_mul_right pageSize (by omega)
    exact Nat.mod_eq_of_lt (by omega)
  refine ⟨fun k hk => ?_, fun j hj k hk hjk => ?_⟩
  · rw [hpage k hk]
    exact Nat.dvd_add hdvd (Nat.dvd_mul_left pageSize k)
  · rw [hpage j hj, hpage k hk] at hjk
    exact Nat.eq_of_mul_eq_mul_right hpos (by omega)

/-- The pool has carved `n` pages: they are live, free or lost, and `n` is the
largest number of pages that were live or lost. -/
structure PeakInv (startAddr pageSize n : Nat) (s : PoolRun) : Prop where
  start_eq : s.ctrl.startAddr = startAddr
  size_eq : s.ctrl.pageSize = pageSize
  owned : Owned s.ctrl n s.live
  fits : startAddr + n * pageSize < 2 ^ 64
  count : s.live.card + s.ctrl.freePages.length + s.lost = n
  high_eq : s.high = n
  peak_eq : s.lost = 0 → s.peak = n

section Peak

variable {startAddr pageSize n : Nat} {s s' : PoolRun}

theorem PeakInv.carved_eq (h : PeakInv startAddr pageSize n s) (hpos : 0 < pageSize) :
    s.carved = n := by
  have hfits := h.fits
  have hnext : s.ctrl.nextPageAddr = startAddr + n * pageSize := by
    rw [h.owned.next, h.start_eq, h.size_eq]
    exact Nat.mod_eq_of_lt hfits
  rw [PoolRun.carved, hnext, h.start_eq, h.size_eq,
    show (2 ^ 64 + (startAddr + n * pageSize) - startAddr) % 2 ^ 64 = n * pageSize by omega]
  exact Nat.mul_div_cancel n hpos

theorem peakInv_start (hlt : startAddr < 2 ^ 64) :
    PeakInv startAddr pageSize 0 (PoolRun.start startAddr pageSize) where
  start_eq := rfl
  size_eq := rfl
  owned := owned_init hlt
  fits := by omega
  count := rfl
  high_eq := rfl
  peak_eq := fun _ => rfl

/-- The two maxima after a step. -/
theorem PeakInv.recorded (h : PeakInv startAddr pageSize n s)
    (hstart : s'.ctrl.startAddr = startAddr) (hsize : s'.ctrl.pageSize = pageSize) {n' : Nat}
    (howned : Owned s'.ctrl n' s'.live) (hfits : startAddr + n' * pageSize < 2 ^ 64)
    (hcount : s'.live.card + s'.ctrl.freePages.length + s'.lost = n')
    (hhigh : s'.high = s.high) (hpeak : s'.peak = s.peak) (hlost : s.lost ≤ s'.lost)
    (hmax : max n (s'.live.card + s'.lost) = n') :
    PeakInv startAddr pageSize n' s'.record where
  start_eq := hstart
  size_eq := hsize
  owned := howned
  fits := hfits
  count := hcount
  high_eq := by
    show max s'.high (s'.live.card + s'.lost) = n'
    rw [hhigh, h.high_eq, hmax]
  peak_eq := by
    intro hzero
    replace hzero : s'.lost = 0 := hzero
    show max s'.peak s'.live.card = n'
    rw [hpeak, h.peak_eq (by omega), ← hmax, hzero, Nat.add_zero]

/-- An allocation carves a page only when every carved page is live or
lost. -/
theorem PeakInv.alloc (hpos : 0 < pageSize) (hdvd : pageSize ∣ startAddr)
    (h : PeakInv startAddr pageSize n s) (hok : s.Ok .alloc) (hstep : s.step .alloc = some s') :
    ∃ n', PeakInv startAddr pageSize n' s' := by
  obtain rfl := Option.some.inj hstep
  have hnext : s.ctrl.nextPageAddr = startAddr + n * pageSize := by
    rw [h.owned.next, h.start_eq, h.size_eq]
    exact Nat.mod_eq_of_lt h.fits
  have hreg : Regular s.ctrl.startAddr s.ctrl.pageSize (n + 1) := by
    rw [h.start_eq, h.size_eq]
    exact regular_of_lt hpos hdvd h.fits
  obtain ⟨hfresh, howned⟩ := allocPage_owned h.owned hreg
  have hcard : (insert (allocPage s.ctrl).1 s.live).card = s.live.card + 1 :=
    Finset.card_insert_of_notMem hfresh
  have hcount := h.count
  refine ⟨carvedAfterAlloc s.ctrl n, h.recorded ?_ ?_ howned ?_ ?_ rfl rfl le_rfl ?_⟩
  · exact (allocPage_startAddr s.ctrl).trans h.start_eq
  · exact (allocPage_pageSize s.ctrl).trans h.size_eq
  · unfold carvedAfterAlloc
    split
    · rename_i hnil
      have hroom := hok hnil
      rw [hnext, h.size_eq] at hroom
      rw [Nat.add_mul, Nat.one_mul]
      omega
    · exact h.fits
  · show (insert (allocPage s.ctrl).1 s.live).card + (allocPage s.ctrl).2.freePages.length +
      s.lost = carvedAfterAlloc s.ctrl n
    rw [hcard]
    unfold allocPage carvedAfterAlloc
    cases hfree : s.ctrl.freePages with
    | nil =>
      simp only [hfree, List.length_nil] at hcount ⊢
      simp only [if_true]
      omega
    | cons top rest =>
      simp only [hfree, List.length_cons] at hcount ⊢
      simp only [reduceCtorEq, if_false]
      omega
  · show max n ((insert (allocPage s.ctrl).1 s.live).card + s.lost) = carvedAfterAlloc s.ctrl n
    rw [hcard]
    unfold carvedAfterAlloc
    cases hfree : s.ctrl.freePages with
    | nil =>
      simp only [hfree, List.length_nil] at hcount ⊢
      simp only [if_true]
      omega
    | cons top rest =>
      simp only [hfree, List.length_cons] at hcount ⊢
      simp only [reduceCtorEq, if_false]
      omega

/-- A page that is freed becomes free or lost. -/
theorem PeakInv.free (h : PeakInv startAddr pageSize n s) {addr : Nat} (hlive : addr ∈ s.live)
    (hstep : s.step (.free addr) = some s') : ∃ n', PeakInv startAddr pageSize n' s' := by
  obtain rfl := Option.some.inj hstep
  have hcard : (s.live.erase addr).card = s.live.card - 1 := Finset.card_erase_of_mem hlive
  have hpos : 0 < s.live.card := Finset.card_pos.mpr ⟨addr, hlive⟩
  have hcount := h.count
  refine ⟨n, h.recorded ?_ ?_ (freePage_owned h.owned hlive) h.fits ?_ rfl rfl ?_ ?_⟩
  · exact (freePage_startAddr s.ctrl addr).trans h.start_eq
  · exact (freePage_pageSize s.ctrl addr).trans h.size_eq
  · show (s.live.erase addr).card + (freePage s.ctrl addr).freePages.length +
      (if s.ctrl.freePages.length < maxFreePage then s.lost else s.lost + 1) = n
    rw [hcard]
    unfold freePage
    simp only
    split
    · simp only [List.length_cons]
      omega
    · omega
  · show s.lost ≤ if s.ctrl.freePages.length < maxFreePage then s.lost else s.lost + 1
    split <;> omega
  · show max n ((s.live.erase addr).card +
      if s.ctrl.freePages.length < maxFreePage then s.lost else s.lost + 1) = n
    rw [hcard]
    split <;> omega

end Peak

/-! ## Runs -/

section Runs

variable {startAddr pageSize : Nat} {s : PoolRun}

theorem reaches_peakInv (hpos : 0 < pageSize) (hdvd : pageSize ∣ startAddr)
    (hlt : startAddr < 2 ^ 64)
    (hreach : Reaches PoolRun.step PoolRun.Ok (PoolRun.start startAddr pageSize) s) :
    ∃ n, PeakInv startAddr pageSize n s := by
  refine hreach.invariant (fun s => ∃ n, PeakInv startAddr pageSize n s)
    ⟨0, peakInv_start hlt⟩ ?_
  intro a op b ⟨n, ha⟩ hok hstep
  cases op with
  | alloc => exact ha.alloc hpos hdvd hok hstep
  | free addr => exact ha.free hok hstep

/-- The number of carved pages is the largest number of pages that were
allocated or dropped at the same time, and as long as no page is dropped it is
the largest number of allocated pages. -/
theorem carved_eq_high (hpos : 0 < pageSize) (hdvd : pageSize ∣ startAddr)
    (hlt : startAddr < 2 ^ 64)
    (hreach : Reaches PoolRun.step PoolRun.Ok (PoolRun.start startAddr pageSize) s) :
    s.carved = s.high ∧ (s.lost = 0 → s.carved = s.peak) := by
  obtain ⟨n, hinv⟩ := reaches_peakInv hpos hdvd hlt hreach
  rw [hinv.carved_eq hpos]
  exact ⟨hinv.high_eq.symm, fun hlost => (hinv.peak_eq hlost).symm⟩

/-- Two allocations, a free and an allocation on the pool of page tables. -/
theorem ptPool_carves_two :
    ∃ s, runIf PoolRun.step PoolRun.Ok (PoolRun.start 0xffffffffa1100000 0x2000)
        [.alloc, .alloc, .free 0xffffffffa1100000, .alloc] = some s ∧
      s.carved = 2 ∧ s.carved = s.peak := by
  obtain ⟨s, hs⟩ : ∃ s, runIf PoolRun.step PoolRun.Ok
      (PoolRun.start 0xffffffffa1100000 0x2000)
      [.alloc, .alloc, .free 0xffffffffa1100000, .alloc] = some s := ⟨_, rfl⟩
  have hpeak := (carved_eq_high (by decide) (by decide) (by decide) (reaches_of_runIf hs)).2
  obtain rfl := Option.some.inj hs
  exact ⟨_, rfl, by decide, hpeak (by decide)⟩

/-! ## A run that drops a page -/

/-- How many pages are live, free and lost, and how many were live at most. -/
structure Tally (s : PoolRun) (live free lost peak : Nat) : Prop where
  live_eq : s.live.card = live
  free_eq : s.ctrl.freePages.length = free
  lost_eq : s.lost = lost
  peak_eq : s.peak = peak
  live_le : live ≤ peak

/-- The states of the pool of page tables. -/
def PtReaches : PoolRun → Prop :=
  Reaches PoolRun.step PoolRun.Ok (PoolRun.start ptStart tableSize)

theorem tally_start : Tally (PoolRun.start ptStart tableSize) 0 0 0 0 where
  live_eq := rfl
  free_eq := rfl
  lost_eq := rfl
  peak_eq := rfl
  live_le := le_rfl

section Tally

variable {live free lost peak : Nat}

theorem exists_alloc (hreach : PtReaches s) (ht : Tally s live free lost peak)
    (hroom : live + free + lost < 1000) :
    ∃ s', PtReaches s' ∧ Tally s' (live + 1) (free - 1) lost (max peak (live + 1)) := by
  obtain ⟨n, hinv⟩ := reaches_peakInv (by decide) (by decide) (by decide) hreach
  have hcount := hinv.count
  rw [ht.live_eq, ht.free_eq, ht.lost_eq] at hcount
  have hreg : Regular s.ctrl.startAddr s.ctrl.pageSize (n + 1) := by
    rw [hinv.start_eq, hinv.size_eq]
    exact regular_of_lt (by decide) (by decide) hinv.fits
  have hok : s.Ok .alloc := by
    intro _
    rw [hinv.owned.next, hinv.start_eq, hinv.size_eq, carvedPage, ptStart, tableSize]
    omega
  have hcard : (insert (allocPage s.ctrl).1 s.live).card = live + 1 := by
    rw [Finset.card_insert_of_notMem (allocPage_owned hinv.owned hreg).1, ht.live_eq]
  refine ⟨_, hreach.snoc hok rfl, hcard, ?_, ht.lost_eq, ?_, le_max_right _ _⟩
  · show (allocPage s.ctrl).2.freePages.length = free - 1
    rw [← ht.free_eq]
    unfold allocPage
    cases hfree : s.ctrl.freePages with
    | nil => simp
    | cons top rest => rfl
  · show max s.peak (insert (allocPage s.ctrl).1 s.live).card = max peak (live + 1)
    rw [hcard, ht.peak_eq]

theorem exists_alloc_many (k : Nat) (hreach : PtReaches s) (ht : Tally s live free lost peak)
    (hroom : live + free + lost + k ≤ 1000) :
    ∃ s', PtReaches s' ∧ Tally s' (live + k) (free - k) lost (max peak (live + k)) := by
  induction k with
  | zero => exact ⟨s, hreach, by simpa [max_eq_left ht.live_le] using ht⟩
  | succ k ih =>
    obtain ⟨s₁, hreach₁, ht₁⟩ := ih (by omega)
    obtain ⟨s₂, hreach₂, ht₂⟩ := exists_alloc hreach₁ ht₁ (by omega)
    refine ⟨s₂, hreach₂, ?_⟩
    rw [show free - (k + 1) = free - k - 1 by omega,
      show max peak (live + (k + 1)) = max (max peak (live + k)) (live + k + 1) by omega]
    exact ht₂

/-- A free with a full stack drops the page. -/
theorem exists_free (hreach : PtReaches s) (ht : Tally s (live + 1) free lost peak) :
    ∃ s', PtReaches s' ∧ Tally s' live (if free < maxFreePage then free + 1 else free)
      (if free < maxFreePage then lost else lost + 1) peak := by
  obtain ⟨addr, hlive⟩ : s.live.Nonempty :=
    Finset.card_pos.mp (by rw [ht.live_eq]; exact Nat.succ_pos live)
  have hcard : (s.live.erase addr).card = live := by
    rw [Finset.card_erase_of_mem hlive, ht.live_eq, Nat.add_sub_cancel]
  have hle := ht.live_le
  refine ⟨_, hreach.snoc (e := .free addr) hlive rfl, hcard, ?_, ?_, ?_, by omega⟩
  · show (freePage s.ctrl addr).freePages.length = _
    rw [← ht.free_eq]
    unfold freePage
    simp only
    split <;> simp
  · show (if s.ctrl.freePages.length < maxFreePage then s.lost else s.lost + 1) = _
    rw [ht.free_eq, ht.lost_eq]
  · show max s.peak (s.live.erase addr).card = peak
    rw [hcard, ht.peak_eq]
    omega

theorem exists_free_many (k : Nat) (hreach : PtReaches s)
    (ht : Tally s (live + k) free lost peak) (hroom : free + k ≤ maxFreePage) :
    ∃ s', PtReaches s' ∧ Tally s' live (free + k) lost peak := by
  induction k generalizing s free with
  | zero => exact ⟨s, hreach, ht⟩
  | succ k ih =>
    rw [show live + (k + 1) = live + k + 1 by omega] at ht
    obtain ⟨s₁, hreach₁, ht₁⟩ := exists_free hreach ht
    rw [if_pos (by omega), if_pos (by omega)] at ht₁
    obtain ⟨s₂, hreach₂, ht₂⟩ := ih hreach₁ ht₁ (by omega)
    refine ⟨s₂, hreach₂, ?_⟩
    rw [show free + (k + 1) = free + 1 + k by omega]
    exact ht₂

end Tally

/-- 125 pages are allocated, freed and allocated again: 126 pages are carved,
and never more than 125 were allocated. -/
theorem refill_carves_more_than_peak :
    ¬ ∀ startAddr pageSize s, 0 < pageSize → pageSize ∣ startAddr → startAddr < 2 ^ 64 →
      Reaches PoolRun.step PoolRun.FreesLive (PoolRun.start startAddr pageSize) s →
      s.carved = s.peak := by
  intro h
  obtain ⟨s₁, hreach₁, ht₁⟩ := exists_alloc_many 125 (Reaches.refl _) tally_start (by decide)
  have hone : Tally s₁ (1 + 124) 0 0 125 := ht₁
  obtain ⟨s₂, hreach₂, ht₂⟩ := exists_free_many 124 hreach₁ hone (by decide)
  have hlast : Tally s₂ (0 + 1) 124 0 125 := ht₂
  obtain ⟨s₃, hreach₃, ht₃⟩ := exists_free hreach₂ hlast
  obtain ⟨s₄, hreach₄, ht₄⟩ := exists_alloc_many 125 hreach₃ ht₃ (by decide)
  obtain ⟨n, hinv⟩ := reaches_peakInv (by decide) (by decide) (by decide) hreach₄
  have hlive : ∀ s op, PoolRun.Ok s op → PoolRun.FreesLive s op := by
    intro s op hok
    cases op with
    | alloc => trivial
    | free addr => exact hok
  have heq := h ptStart tableSize s₄ (by decide) (by decide) (by decide) (hreach₄.mono hlive)
  have hcount := hinv.count
  rw [hinv.carved_eq (by decide), ht₄.peak_eq] at heq
  rw [ht₄.live_eq, ht₄.free_eq, ht₄.lost_eq] at hcount
  norm_num [maxFreePage] at heq hcount
  omega

end Runs

end MipsOs.Mm
