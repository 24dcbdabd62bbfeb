import Mathlib

/-!
# The page allocator

`struct PageCtrl` of `include/os/mm.h` and the three functions
`page_ctrl_init`, `alloc_page` and `free_page` of `mm/memory.c`.  A pool
carves pages one after another from `start_addr`, keeps up to
`MAX_FREE_PAGE` freed pages on a stack and drops the rest.

Addresses are natural numbers below `2 ^ 64`, and the one addition of the
allocator wraps there.  The array `free_pages[0 .. cnt_free_page)` is the
list `freePages`, with the top of the stack in front.

`Owned c n live` is the invariant of a pool: `n` pages have been carved,
`live` are the pages handed out and not given back.  `allocPage_owned` and
`freePage_owned` say how the two operations move it.  `Exact` adds that no
page has been dropped.
-/

namespace MipsOs.Mm

-- `pcb_list` and `disk_buff` are tables of 32 entries, indexed by `Fin 32`.
instance neZeroEntries : NeZero 32 := ⟨by decide⟩

/-- `MAX_FREE_PAGE` -/
def maxFreePage : Nat := 124

/-- `struct PageCtrl` -/
structure PageCtrl where
  startAddr : Nat
  nextPageAddr : Nat
  pageSize : Nat
  freePages : List Nat
  deriving DecidableEq, Repr

/-- `page_ctrl_init` -/
def pageCtrlInit (startAddr pageSize : Nat) : PageCtrl where
  startAddr := startAddr
  nextPageAddr := startAddr
  pageSize := pageSize
  freePages := []

/-- `alloc_page`: a page that was given back, or the next one. -/
def allocPage (c : PageCtrl) : Nat × PageCtrl :=
  match c.freePages with
  | pageAddr :: rest => (pageAddr, { c with freePages := rest })
  | [] => (c.nextPageAddr,
      { c with nextPageAddr := (c.nextPageAddr + c.pageSize) % 2 ^ 64 })

/-- `free_page`, which drops the page when the stack is full. -/
def freePage (c : PageCtrl) (addr : Nat) : PageCtrl :=
  let addr := addr / c.pageSize * c.pageSize
  if c.freePages.length < maxFreePage then
    { c with freePages := addr :: c.freePages }
  else
    c

/-! ## Carved pages -/

/-- The `k`-th page that a pool carves. -/
def carvedPage (startAddr pageSize k : Nat) : Nat :=
  (startAddr + k * pageSize) % 2 ^ 64

/-- The first `n` pages of a pool are aligned and pairwise distinct.  This
holds as long as the pool does not wrap onto itself. -/
structure Regular (startAddr pageSize n : Nat) : Prop where
  dvd : ∀ k < n, pageSize ∣ carvedPage startAddr pageSize k
  inj : ∀ j < n, ∀ k < n,
    carvedPage startAddr pageSize j = carvedPage startAddr pageSize k → j = k

theorem Regular.mono {startAddr pageSize m n : Nat}
    (h : Regular startAddr pageSize n) (hmn : m ≤ n) :
    Regular startAddr pageSize m :=
  ⟨fun k hk => h.dvd k (by omega),
    fun j hj k hk => h.inj j (by omega) k (by omega)⟩

/-- A pool whose page size divides `2 ^ 64` is regular up to one full turn of
the address space. -/
theorem regular_of_dvd {startAddr pageSize n : Nat} (hpos : 0 < pageSize)
    (hstart : pageSize ∣ startAddr) (hdvd : pageSize ∣ 2 ^ 64)
    (hn : n * pageSize ≤ 2 ^ 64) : Regular startAddr pageSize n := by
  refine ⟨fun k _ => ?_, fun j hj k hk hjk => ?_⟩
  · rw [carvedPage, Nat.dvd_mod_iff hdvd]
    exact Nat.dvd_add hstart (Nat.dvd_mul_left _ _)
  · have hmod : Nat.ModEq (2 ^ 64) (j * pageSize) (k * pageSize) :=
      Nat.ModEq.add_left_cancel' startAddr hjk
    have hlt : ∀ i < n, i * pageSize < 2 ^ 64 := fun i hi =>
      lt_of_lt_of_le (Nat.mul_lt_mul_of_pos_right hi hpos) hn
    have heq : j * pageSize = k * pageSize :=
      Nat.ModEq.eq_of_lt_of_lt hmod (hlt j hj) (hlt k hk)
    exact Nat.eq_of_mul_eq_mul_right hpos heq

/-! ## The pool invariant -/

/-- `n` pages are carved and `live` are the pages handed out.  The free stack
holds carved pages that are not live, each once. -/
structure Owned (c : PageCtrl) (n : Nat) (live : Finset Nat) : Prop where
  next : c.nextPageAddr = carvedPage c.startAddr c.pageSize n
  regular : Regular c.startAddr c.pageSize n
  live_carved : ∀ a ∈ live, ∃ k < n, a = carvedPage c.startAddr c.pageSize k
  free_carved : ∀ a ∈ c.freePages, ∃ k < n, a = carvedPage c.startAddr c.pageSize k
  free_nodup : c.freePages.Nodup
  free_le : c.freePages.length ≤ maxFreePage
  free_not_live : ∀ a ∈ c.freePages, a ∉ live

theorem owned_init {startAddr pageSize : Nat} (hlt : startAddr < 2 ^ 64) :
    Owned (pageCtrlInit startAddr pageSize) 0 ∅ where
  next := by
    rw [pageCtrlInit, carvedPage, Nat.zero_mul, Nat.add_zero, Nat.mod_eq_of_lt hlt]
  regular := ⟨fun k hk => absurd hk (by omega), fun j hj => absurd hj (by omega)⟩
  live_carved := by simp
  free_carved := by simp [pageCtrlInit]
  free_nodup := by simp [pageCtrlInit]
  free_le := by simp [pageCtrlInit]
  free_not_live := by simp

/-- The number of carved pages after an allocation. -/
def carvedAfterAlloc (c : PageCtrl) (n : Nat) : Nat :=
  if c.freePages = [] then n + 1 else n

theorem allocPage_of_nil {c : PageCtrl} (hnil : c.freePages = []) :
    allocPage c = (c.nextPageAddr,
      { c with nextPageAddr := (c.nextPageAddr + c.pageSize) % 2 ^ 64 }) := by
  simp [allocPage, hnil]

theorem allocPage_of_cons {c : PageCtrl} {top : Nat} {rest : List Nat}
    (hcons : c.freePages = top :: rest) :
    allocPage c = (top, { c with freePages := rest }) := by
  simp [allocPage, hcons]

@[simp] theorem allocPage_startAddr (c : PageCtrl) :
    (allocPage c).2.startAddr = c.startAddr := by
  unfold allocPage
  split <;> rfl

@[simp] theorem allocPage_pageSize (c : PageCtrl) :
    (allocPage c).2.pageSize = c.pageSize := by
  unfold allocPage
  split <;> rfl

@[simp] theorem freePage_startAddr (c : PageCtrl) (addr : Nat) :
    (freePage c addr).startAddr = c.startAddr := by
  unfold freePage
  simp only
  split <;> rfl

@[simp] theorem freePage_pageSize (c : PageCtrl) (addr : Nat) :
    (freePage c addr).pageSize = c.pageSize := by
  unfold freePage
  simp only
  split <;> rfl

@[simp] theorem freePage_nextPageAddr (c : PageCtrl) (addr : Nat) :
    (freePage c addr).nextPageAddr = c.nextPageAddr := by
  unfold freePage
  simp only
  split <;> rfl

/-- An allocation hands out a page that is not live. -/
theorem allocPage_owned {c : PageCtrl} {n : Nat} {live : Finset Nat}
    (h : Owned c n live) (hreg : Regular c.startAddr c.pageSize (n + 1)) :
    (allocPage c).1 ∉ live ∧
      Owned (allocPage c).2 (carvedAfterAlloc c n)
        (insert (allocPage c).1 live) := by
  obtain ⟨hnext, hregn, hlive, hfree, hnodup, hle, hnot⟩ := h
  unfold allocPage carvedAfterAlloc
  cases hstack : c.freePages with
  | nil =>
    have hfresh : c.nextPageAddr ∉ live := by
      intro hmem
      obtain ⟨k, hk, hpage⟩ := hlive _ hmem
      have := hreg.inj n (by omega) k (by omega) (hnext.symm.trans hpage)
      omega
    refine ⟨hfresh, ?_, by simpa using hreg, ?_, by simp, by simp, by simp, by simp⟩
    · simp only [hnext, carvedPage, if_pos, Nat.mod_add_mod]
      rw [Nat.add_mul, Nat.one_mul, Nat.add_assoc]
    · intro a ha
      rcases Finset.mem_insert.mp ha with rfl | ha
      · exact ⟨n, by simp, hnext⟩
      · obtain ⟨k, hk, hpage⟩ := hlive a ha
        exact ⟨k, by simp; omega, hpage⟩
  | cons top rest =>
    rw [hstack] at hfree hnodup hle hnot
    have hcons := List.nodup_cons.mp hnodup
    refine ⟨hnot top (by simp), ?_, ?_, ?_, ?_, hcons.2, ?_, ?_⟩
    · simpa using hnext
    · simpa using hregn
    · intro a ha
      rcases Finset.mem_insert.mp ha with rfl | ha
      · simpa using hfree a (by simp)
      · simpa using hlive a ha
    · intro a ha
      simpa using hfree a (List.mem_cons_of_mem _ ha)
    · simp only [List.length_cons] at hle
      simp only
      omega
    · intro a ha hmem
      rcases Finset.mem_insert.mp hmem with rfl | hmem
      · exact hcons.1 ha
      · exact hnot a (List.mem_cons_of_mem _ ha) hmem

/-- The rounding of `free_page` leaves a carved page alone. -/
theorem Owned.round {c : PageCtrl} {n : Nat} {live : Finset Nat}
    (h : Owned c n live) {a : Nat} (ha : a ∈ live) :
    a / c.pageSize * c.pageSize = a := by
  obtain ⟨k, hk, rfl⟩ := h.live_carved a ha
  exact Nat.div_mul_cancel (h.regular.dvd k hk)

/-- Giving back a live page makes it free or drops it. -/
theorem freePage_owned {c : PageCtrl} {n : Nat} {live : Finset Nat}
    (h : Owned c n live) {a : Nat} (ha : a ∈ live) :
    Owned (freePage c a) n (live.erase a) := by
  have hround := h.round ha
  obtain ⟨hnext, hreg, hlive, hfree, hnodup, hle, hnot⟩ := h
  have hlive' : ∀ b ∈ live.erase a, ∃ k < n, b = carvedPage c.startAddr c.pageSize k :=
    fun b hb => hlive b (Finset.mem_of_mem_erase hb)
  unfold freePage
  simp only [hround]
  split
  · rename_i hlt
    refine ⟨hnext, hreg, hlive', ?_, ?_, ?_, ?_⟩
    · intro b hb
      rcases List.mem_cons.mp hb with rfl | hb
      · exact hlive b ha
      · exact hfree b hb
    · exact List.nodup_cons.mpr ⟨fun hmem => hnot a hmem ha, hnodup⟩
    · simp only [List.length_cons]
      omega
    · intro b hb hmem
      rcases List.mem_cons.mp hb with rfl | hb
      · exact Finset.notMem_erase b live hmem
      · exact hnot b hb (Finset.mem_of_mem_erase hmem)
  · exact ⟨hnext, hreg, hlive', hfree, hnodup, hle,
      fun b hb hmem => hnot b hb (Finset.mem_of_mem_erase hmem)⟩

/-! ## Pools that drop no page -/

/-- Every carved page is live or on the free stack. -/
structure Exact (c : PageCtrl) (n : Nat) (live : Finset Nat) : Prop
    extends Owned c n live where
  count : live.card + c.freePages.length = n

theorem exact_init {startAddr : Nat} (pageSize : Nat) (hlt : startAddr < 2 ^ 64) :
    Exact (pageCtrlInit startAddr pageSize) 0 ∅ where
  toOwned := owned_init hlt
  count := by simp [pageCtrlInit]

theorem allocPage_exact {c : PageCtrl} {n : Nat} {live : Finset Nat}
    (h : Exact c n live) (hreg : Regular c.startAddr c.pageSize (n + 1)) :
    (allocPage c).1 ∉ live ∧
      Exact (allocPage c).2 (carvedAfterAlloc c n)
        (insert (allocPage c).1 live) := by
  obtain ⟨hfresh, howned⟩ := allocPage_owned h.toOwned hreg
  refine ⟨hfresh, howned, ?_⟩
  rw [Finset.card_insert_of_notMem hfresh]
  have hcount := h.count
  unfold allocPage carvedAfterAlloc
  cases hstack : c.freePages with
  | nil =>
    simp only [hstack, List.length_nil] at hcount ⊢
    simp only [if_pos]
    omega
  | cons top rest =>
    simp only [hstack, List.length_cons] at hcount ⊢
    simp only [reduceCtorEq, if_false]
    omega

theorem freePage_exact {c : PageCtrl} {n : Nat} {live : Finset Nat}
    (h : Exact c n live) (hn : n ≤ maxFreePage) {a : Nat} (ha : a ∈ live) :
    Exact (freePage c a) n (live.erase a) := by
  refine ⟨freePage_owned h.toOwned ha, ?_⟩
  have hcount := h.count
  have hcard : 0 < live.card := Finset.card_pos.mpr ⟨a, ha⟩
  rw [Finset.card_erase_of_mem ha]
  unfold freePage
  simp only
  rw [if_pos (by omega)]
  simp only [List.length_cons]
  omega

end MipsOs.Mm
