import MipsOs.Lib.Run
import MipsOs.Mm.PagePeak

/-!
# Live, free and dropped pages

A run of `alloc_page` and `free_page` on one pool in which a page may be freed
by the address of any of its bytes.  Next to the pool the state keeps where
each page went: the pages that were taken from `next_page_addr`, the pages that
are allocated and the pages that `free_page` dropped because the free stack was
full.

Every carved page is in exactly one of three places: allocated, on the free
stack, or dropped.  So `alloc_page` never hands out a page that is allocated.
-/

namespace MipsOs.Mm

open MipsOs.Lib

/-- A pool, and where the pages it has carved are. -/
structure PoolHistory where
  ctrl : PageCtrl
  carved : Finset Nat
  live : Finset Nat
  dropped : Finset Nat
  deriving DecidableEq

/-- `addr` is the address of a byte of the page. -/
def InPage (pageSize addr page : Nat) : Prop :=
  page ≤ addr ∧ addr < page + pageSize

instance (pageSize addr page : Nat) : Decidable (InPage pageSize addr page) :=
  inferInstanceAs (Decidable (_ ∧ _))

namespace PoolHistory

/-- The allocated pages that `addr` lies in. -/
def pagesAt (s : PoolHistory) (addr : Nat) : Finset Nat :=
  s.live.filter (InPage s.ctrl.pageSize addr)

/-- One call, with the pages that are carved, allocated and dropped. -/
def step (s : PoolHistory) : PoolOp → Option PoolHistory
  | .alloc =>
    let (addr, ctrl) := allocPage s.ctrl
    let carved := if s.ctrl.freePages = [] then insert addr s.carved else s.carved
    some { s with ctrl := ctrl, carved := carved, live := insert addr s.live }
  | .free addr =>
    let ctrl := freePage s.ctrl addr
    let dropped := if s.ctrl.freePages.length < maxFreePage then s.dropped
      else s.dropped ∪ s.pagesAt addr
    some { s with ctrl := ctrl, live := s.live \ s.pagesAt addr, dropped := dropped }

/-- A new pool. -/
def start (startAddr pageSize : Nat) : PoolHistory where
  ctrl := pageCtrlInit startAddr pageSize
  carved := ∅
  live := ∅
  dropped := ∅

/-- A freed address lies in an allocated page, and `next_page_addr` does not
wrap. -/
def Ok (s : PoolHistory) : PoolOp → Prop
  | .alloc => s.ctrl.freePages = [] → s.ctrl.nextPageAddr + s.ctrl.pageSize < 2 ^ 64
  | .free addr => ∃ page ∈ s.live, InPage s.ctrl.pageSize addr page

instance (s : PoolHistory) : (op : PoolOp) → Decidable (s.Ok op)
  | .alloc => inferInstanceAs (Decidable (_ → _))
  | .free _ => inferInstanceAs (Decidable (∃ page ∈ s.live, _))

end PoolHistory

/-! ## The page of an address -/

/-- The rounding of `free_page` finds the page that an address lies in. -/
theorem round_of_inPage {pageSize addr page : Nat} (hdvd : pageSize ∣ page)
    (hin : InPage pageSize addr page) : addr / pageSize * pageSize = page := by
  obtain ⟨k, hk⟩ := hdvd
  subst hk
  have hdiv : addr / pageSize = k := by
    apply Nat.div_eq_of_lt_le
    · rw [Nat.mul_comm]
      exact hin.1
    · rw [Nat.add_mul, Nat.one_mul, Nat.mul_comm k]
      exact hin.2
  rw [hdiv, Nat.mul_comm]

theorem freePage_of_inPage {c : PageCtrl} {addr page : Nat} (hdvd : c.pageSize ∣ page)
    (hin : InPage c.pageSize addr page) : freePage c addr = freePage c page := by
  have hpage : page / c.pageSize * c.pageSize = page := Nat.div_mul_cancel hdvd
  rw [freePage, freePage, round_of_inPage hdvd hin, hpage]

/-! ## The invariant -/

/-- `n` pages are carved, and each of them is allocated, free or dropped. -/
structure HistoryInv (startAddr pageSize n : Nat) (s : PoolHistory) : Prop where
  start_eq : s.ctrl.startAddr = startAddr
  size_eq : s.ctrl.pageSize = pageSize
  owned : Owned s.ctrl n s.live
  fits : startAddr + n * pageSize < 2 ^ 64
  carved_eq : s.carved = (Finset.range n).image fun k => startAddr + k * pageSize
  parts : s.carved = s.live ∪ s.ctrl.freePages.toFinset ∪ s.dropped
  dropped_live : Disjoint s.dropped s.live
  dropped_free : Disjoint s.dropped s.ctrl.freePages.toFinset

section History

variable {startAddr pageSize n : Nat} {s s' : PoolHistory}

theorem historyInv_start (hlt : startAddr < 2 ^ 64) :
    HistoryInv startAddr pageSize 0 (PoolHistory.start startAddr pageSize) where
  start_eq := rfl
  size_eq := rfl
  owned := owned_init hlt
  fits := by omega
  carved_eq := rfl
  parts := rfl
  dropped_live := Finset.disjoint_empty_left _
  dropped_free := Finset.disjoint_empty_left _

theorem HistoryInv.next_eq (h : HistoryInv startAddr pageSize n s) :
    s.ctrl.nextPageAddr = startAddr + n * pageSize := by
  rw [h.owned.next, h.start_eq, h.size_eq]
  exact Nat.mod_eq_of_lt h.fits

theorem HistoryInv.mem_carved (h : HistoryInv startAddr pageSize n s) {page : Nat} :
    page ∈ s.carved ↔ ∃ k < n, page = startAddr + k * pageSize := by
  rw [h.carved_eq]
  simp [eq_comm]

/-- The page that is carved next is new. -/
theorem HistoryInv.next_not_mem (h : HistoryInv startAddr pageSize n s) (hpos : 0 < pageSize) :
    startAddr + n * pageSize ∉ s.carved := by
  intro hmem
  obtain ⟨k, hk, heq⟩ := h.mem_carved.mp hmem
  have : n * pageSize = k * pageSize := by omega
  have := Nat.eq_of_mul_eq_mul_right hpos this
  omega

theorem HistoryInv.live_subset (h : HistoryInv startAddr pageSize n s) :
    s.live ⊆ s.carved := by
  rw [h.parts, Finset.union_assoc]
  exact Finset.subset_union_left

theorem HistoryInv.dropped_subset (h : HistoryInv startAddr pageSize n s) :
    s.dropped ⊆ s.carved := by
  rw [h.parts]
  exact Finset.subset_union_right

theorem HistoryInv.free_carved (h : HistoryInv startAddr pageSize n s) {page : Nat}
    (hfree : page ∈ s.ctrl.freePages) : page ∈ s.carved := by
  rw [h.parts]
  simp [hfree]

theorem HistoryInv.dvd (h : HistoryInv startAddr pageSize n s) (hdvd : pageSize ∣ startAddr)
    {page : Nat} (hpage : page ∈ s.carved) : pageSize ∣ page := by
  obtain ⟨k, -, rfl⟩ := h.mem_carved.mp hpage
  exact Nat.dvd_add hdvd (Nat.dvd_mul_left pageSize k)

/-- An allocation with an empty free stack carves a page. -/
theorem HistoryInv.alloc_carve (h : HistoryInv startAddr pageSize n s) (hpos : 0 < pageSize)
    (hdvd : pageSize ∣ startAddr) (hnil : s.ctrl.freePages = []) (hok : s.Ok .alloc)
    (hstep : s.step .alloc = some s') : HistoryInv startAddr pageSize (n + 1) s' := by
  have halloc := allocPage_of_nil hnil
  have hreg : Regular s.ctrl.startAddr s.ctrl.pageSize (n + 1) := by
    rw [h.start_eq, h.size_eq]
    exact regular_of_lt hpos hdvd h.fits
  have howned := (allocPage_owned h.owned hreg).2
  have hnew := h.next_not_mem hpos
  have hroom := hok hnil
  rw [h.next_eq, h.size_eq] at hroom
  simp only [PoolHistory.step, halloc, if_pos hnil, h.next_eq] at hstep
  rw [carvedAfterAlloc, if_pos hnil, halloc, h.next_eq] at howned
  obtain rfl := Option.some.inj hstep
  refine ⟨h.start_eq, h.size_eq, howned, ?_, ?_, ?_, ?_, ?_⟩
  · rw [Nat.add_mul, Nat.one_mul]
    omega
  · show insert (startAddr + n * pageSize) s.carved = _
    rw [Finset.range_add_one, Finset.image_insert, ← h.carved_eq]
  · show insert (startAddr + n * pageSize) s.carved = insert (startAddr + n * pageSize) s.live ∪
      s.ctrl.freePages.toFinset ∪ s.dropped
    rw [Finset.insert_union, Finset.insert_union, ← h.parts]
  · show Disjoint s.dropped (insert (startAddr + n * pageSize) s.live)
    refine Finset.disjoint_insert_right.mpr ⟨fun hmem => ?_, h.dropped_live⟩
    exact hnew (h.dropped_subset hmem)
  · exact h.dropped_free

/-- An allocation takes the top of a free stack that is not empty. -/
theorem HistoryInv.alloc_reuse (h : HistoryInv startAddr pageSize n s) (hpos : 0 < pageSize)
    (hdvd : pageSize ∣ startAddr) {top : Nat} {rest : List Nat}
    (hcons : s.ctrl.freePages = top :: rest) (hstep : s.step .alloc = some s') :
    HistoryInv startAddr pageSize n s' := by
  have halloc := allocPage_of_cons hcons
  have hreg : Regular s.ctrl.startAddr s.ctrl.pageSize (n + 1) := by
    rw [h.start_eq, h.size_eq]
    exact regular_of_lt hpos hdvd h.fits
  have howned := (allocPage_owned h.owned hreg).2
  have hne : s.ctrl.freePages ≠ [] := by simp [hcons]
  simp only [PoolHistory.step, halloc, if_neg hne] at hstep
  rw [carvedAfterAlloc, if_neg hne, halloc] at howned
  obtain rfl := Option.some.inj hstep
  have hfree := h.dropped_free
  rw [hcons, List.toFinset_cons, Finset.disjoint_insert_right] at hfree
  refine ⟨h.start_eq, h.size_eq, howned, h.fits, h.carved_eq, ?_, ?_, hfree.2⟩
  · show s.carved = insert top s.live ∪ rest.toFinset ∪ s.dropped
    rw [h.parts, hcons, List.toFinset_cons, Finset.union_insert, Finset.insert_union,
      Finset.insert_union, Finset.insert_union]
  · show Disjoint s.dropped (insert top s.live)
    exact Finset.disjoint_insert_right.mpr ⟨hfree.1, h.dropped_live⟩

/-- An address lies in one allocated page at most. -/
theorem HistoryInv.pagesAt_eq (h : HistoryInv startAddr pageSize n s)
    (hdvd : pageSize ∣ startAddr) {addr page : Nat} (hlive : page ∈ s.live)
    (hin : InPage s.ctrl.pageSize addr page) : s.pagesAt addr = {page} := by
  have hround : ∀ other ∈ s.live, InPage s.ctrl.pageSize addr other →
      addr / s.ctrl.pageSize * s.ctrl.pageSize = other := by
    intro other hother hin'
    have hd : s.ctrl.pageSize ∣ other := by
      rw [h.size_eq]
      exact h.dvd hdvd (h.live_subset hother)
    exact round_of_inPage hd hin'
  ext other
  simp only [PoolHistory.pagesAt, Finset.mem_filter, Finset.mem_singleton]
  constructor
  · intro hother
    rw [← hround other hother.1 hother.2, hround page hlive hin]
  · intro heq
    subst heq
    exact ⟨hlive, hin⟩

/-- A freed page becomes free or dropped. -/
theorem HistoryInv.free (h : HistoryInv startAddr pageSize n s) (hdvd : pageSize ∣ startAddr)
    {addr : Nat} (hok : s.Ok (.free addr)) (hstep : s.step (.free addr) = some s') :
    HistoryInv startAddr pageSize n s' := by
  obtain ⟨page, hlive, hin⟩ := hok
  have hpage : s.ctrl.pageSize ∣ page := by
    rw [h.size_eq]
    exact h.dvd hdvd (h.live_subset hlive)
  have hround : page / s.ctrl.pageSize * s.ctrl.pageSize = page := Nat.div_mul_cancel hpage
  have howned := freePage_owned h.owned hlive
  have hdrop : page ∉ s.dropped := fun hmem => Finset.disjoint_left.mp h.dropped_live hmem hlive
  have hnot : page ∉ s.ctrl.freePages := fun hmem => h.owned.free_not_live page hmem hlive
  have hsplit : s.live = insert page (s.live.erase page) := (Finset.insert_erase hlive).symm
  have hless : Disjoint s.dropped (s.live.erase page) :=
    h.dropped_live.mono_right (Finset.erase_subset page s.live)
  rw [PoolHistory.step, freePage_of_inPage hpage hin, h.pagesAt_eq hdvd hlive hin,
    Finset.sdiff_singleton_eq_erase] at hstep
  obtain rfl := Option.some.inj hstep
  refine ⟨(freePage_startAddr _ _).trans h.start_eq, (freePage_pageSize _ _).trans h.size_eq,
    howned, h.fits, h.carved_eq, ?_, ?_, ?_⟩
  · show s.carved = s.live.erase page ∪ (freePage s.ctrl page).freePages.toFinset ∪
      if s.ctrl.freePages.length < maxFreePage then s.dropped else s.dropped ∪ {page}
    rw [h.parts, hsplit, Finset.erase_insert (Finset.notMem_erase page s.live), freePage, hround]
    split
    · rw [List.toFinset_cons, Finset.union_insert, Finset.insert_union]
    · rw [Finset.union_comm s.dropped, ← Finset.insert_eq, Finset.union_insert,
        Finset.insert_union, Finset.insert_union]
  · show Disjoint (if s.ctrl.freePages.length < maxFreePage then s.dropped
      else s.dropped ∪ {page}) (s.live.erase page)
    split
    · exact hless
    · refine Finset.disjoint_union_left.mpr ⟨hless, ?_⟩
      exact Finset.disjoint_singleton_left.mpr (Finset.notMem_erase page s.live)
  · show Disjoint (if s.ctrl.freePages.length < maxFreePage then s.dropped
      else s.dropped ∪ {page}) (freePage s.ctrl page).freePages.toFinset
    rw [freePage, hround]
    split
    · rw [List.toFinset_cons, Finset.disjoint_insert_right]
      exact ⟨hdrop, h.dropped_free⟩
    · refine Finset.disjoint_union_left.mpr ⟨h.dropped_free, ?_⟩
      exact Finset.disjoint_singleton_left.mpr (by simpa using hnot)

end History

/-! ## Runs -/

section Runs

variable {startAddr pageSize : Nat} {s : PoolHistory}

theorem reaches_historyInv (hpos : 0 < pageSize) (hdvd : pageSize ∣ startAddr)
    (hlt : startAddr < 2 ^ 64)
    (hreach : Reaches PoolHistory.step PoolHistory.Ok (PoolHistory.start startAddr pageSize) s) :
    ∃ n, HistoryInv startAddr pageSize n s := by
  refine hreach.invariant (fun s => ∃ n, HistoryInv startAddr pageSize n s)
    ⟨0, historyInv_start hlt⟩ ?_
  intro a op b ⟨n, ha⟩ hok hstep
  cases op with
  | alloc =>
    cases hfree : a.ctrl.freePages with
    | nil => exact ⟨n + 1, ha.alloc_carve hpos hdvd hfree hok hstep⟩
    | cons top rest => exact ⟨n, ha.alloc_reuse hpos hdvd hfree hstep⟩
  | free addr => exact ⟨n, ha.free hdvd hok hstep⟩

/-- No byte belongs to two of the pages that a pool has carved. -/
theorem carved_pages_disjoint (hpos : 0 < pageSize) (hdvd : pageSize ∣ startAddr)
    (hlt : startAddr < 2 ^ 64)
    (hreach : Reaches PoolHistory.step PoolHistory.Ok (PoolHistory.start startAddr pageSize) s)
    {addr page page' : Nat} (hpage : page ∈ s.carved) (hpage' : page' ∈ s.carved)
    (hin : InPage pageSize addr page) (hin' : InPage pageSize addr page') : page = page' := by
  obtain ⟨n, hinv⟩ := reaches_historyInv hpos hdvd hlt hreach
  rw [← round_of_inPage (hinv.dvd hdvd hpage) hin, round_of_inPage (hinv.dvd hdvd hpage') hin']

/-- In every state of every run, the next allocation hands out a page that
starts a multiple of the page size behind the start and that is not allocated,
and the free stack holds at most 124 carved pages that are neither allocated nor
dropped, each once. -/
theorem alloc_never_live (hpos : 0 < pageSize) (hdvd : pageSize ∣ startAddr)
    (hlt : startAddr < 2 ^ 64)
    (hreach : Reaches PoolHistory.step PoolHistory.Ok (PoolHistory.start startAddr pageSize) s) :
    ((∃ k, (allocPage s.ctrl).1 = startAddr + k * pageSize) ∧ (allocPage s.ctrl).1 ∉ s.live) ∧
      s.ctrl.freePages.Nodup ∧ s.ctrl.freePages.length ≤ 124 ∧
      (∀ page ∈ s.ctrl.freePages, page ∈ s.carved ∧ page ∉ s.live ∧ page ∉ s.dropped) ∧
      ∀ page ∈ s.live, page ∈ s.carved := by
  obtain ⟨n, hinv⟩ := reaches_historyInv hpos hdvd hlt hreach
  refine ⟨?_, hinv.owned.free_nodup, hinv.owned.free_le, ?_, fun page hpage =>
    hinv.live_subset hpage⟩
  · unfold allocPage
    cases hfree : s.ctrl.freePages with
    | nil =>
      have hnew := hinv.next_not_mem hpos
      rw [hinv.next_eq]
      exact ⟨⟨n, rfl⟩, fun hmem => hnew (hinv.live_subset hmem)⟩
    | cons top rest =>
      have htop : top ∈ s.ctrl.freePages := by simp [hfree]
      obtain ⟨k, -, hk⟩ := hinv.mem_carved.mp (hinv.free_carved htop)
      exact ⟨⟨k, hk⟩, hinv.owned.free_not_live top htop⟩
  · intro page hpage
    refine ⟨hinv.free_carved hpage, hinv.owned.free_not_live page hpage, fun hmem => ?_⟩
    exact Finset.disjoint_left.mp hinv.dropped_free hmem (by simpa using hpage)

/-- Two pages of the pool of page tables, the second freed by an address in its
middle and allocated again. -/
theorem pt_alloc_never_live :
    ∃ s, runIf PoolHistory.step PoolHistory.Ok (PoolHistory.start ptStart tableSize)
        [.alloc, .alloc, .free (ptStart + 0x3008)] = some s ∧
      (allocPage s.ctrl).1 = ptStart + 0x2000 ∧ (allocPage s.ctrl).1 ∉ s.live := by
  obtain ⟨s, hs⟩ : ∃ s, runIf PoolHistory.step PoolHistory.Ok
      (PoolHistory.start ptStart tableSize)
      [.alloc, .alloc, .free (ptStart + 0x3008)] = some s := ⟨_, rfl⟩
  have hfresh := (alloc_never_live (by decide) (by decide) (by decide) (reaches_of_runIf hs)).1.2
  obtain rfl := Option.some.inj hs
  exact ⟨_, rfl, by decide, hfresh⟩

end Runs

end MipsOs.Mm
