import MipsOs.Mm.TablePools

/-!
# The user pages

A user address is translated by the page directory of its process: the entry of
the page table has the frame, and the low bits are the offset.  Two directories
translate no two addresses to the same byte.

A page fault maps a frame for each entry of the pair that is not valid.
`do_page_fault` takes the frame that `alloc_page` hands out as it is: first the
frames that dead processes have left on the stack of `page_ctrl_user`
(`Memory.reused`), then frames that nobody has had.
-/

namespace MipsOs.Mm

namespace Memory

/-- The physical address of a user address. -/
def translate (m : Memory) (pgd addr : Nat) : Option Nat :=
  let pte := m.word pgd ((addr >>> 22) &&& 0x3ff) ((addr >>> 12) &&& 0x3ff)
  if pteValid pte then some (frameOf pte + addr % pageSize) else none

/-- How many entries of the pair of the address are not valid. -/
def missing (m : Memory) (addr : Nat) : Nat :=
  let pgdOffset := (addr >>> 22) &&& 0x3ff
  let ptOffset := (addr >>> 12) &&& 0x3fe
  (if pteValid (m.word m.currentPgd pgdOffset ptOffset) then 0 else 1) +
    if pteValid (m.word m.currentPgd pgdOffset (ptOffset + 1)) then 0 else 1

/-- The freed frames that a page fault at the address takes. -/
def reused (m : Memory) (addr : Nat) : List Nat :=
  m.pageCtrlUser.freePages.take (m.missing addr)

end Memory

section Translate

variable {m : Memory} {pgds : Finset Nat} {p q a b addr x y : Nat}

theorem translate_eq_some : m.translate p addr = some x ↔
    pteValid (m.word p ((addr >>> 22) &&& 0x3ff) ((addr >>> 12) &&& 0x3ff)) ∧
      frameOf (m.word p ((addr >>> 22) &&& 0x3ff) ((addr >>> 12) &&& 0x3ff)) +
        addr % pageSize = x := by
  unfold Memory.translate
  simp

/-- A valid entry is in a page table of its own. -/
theorem Serves.mapped {live : Live} {nG nT nU : Nat} (h : Serves m live nG nT nU)
    (hp : p ∈ live.pgds) (ha : a < numEntry) (hb : b < numEntry)
    (hvalid : pteValid (m.word p a b)) :
    m.Dir live.pgds p a ∧ m.Pte live.pgds (m.tables p a) b := by
  have hne : m.tables p a ≠ m.globalEmptyPt := by
    intro heq
    rw [Memory.word, heq, h.empty_zero] at hvalid
    exact not_pteValid_zero hvalid
  have hdir : m.Dir live.pgds p a := ⟨hp, ha, hne⟩
  exact ⟨hdir, ⟨p, a, hdir, rfl⟩, hb, hvalid⟩

/-- A mapped byte is in a frame that has been carved. -/
theorem Owns.translate_lt (h : Owns m pgds) (hp : p ∈ pgds) (hx : m.translate p addr = some x) :
    x < m.pageCtrlUser.nextPageAddr := by
  obtain ⟨live, nG, nT, nU, hserves, rfl⟩ := h
  obtain ⟨hvalid, rfl⟩ := translate_eq_some.mp hx
  obtain ⟨_, hpte⟩ := hserves.mapped hp (and_mask_lt _) (and_mask_lt _) hvalid
  obtain ⟨k, hk, hcarved⟩ := hserves.pools.user.live_carved _ (hserves.refs.pte_mem _ _ hpte)
  have hnext := hserves.pools.user.next
  have hU := hserves.pools.nU_le
  rw [hserves.pools.user_start.1, hserves.pools.user_start.2, carvedPage] at hcarved hnext
  rw [userStart, pageSize] at hcarved hnext hU
  rw [Memory.word, hcarved, hnext, pageSize]
  omega

/-- Two directories map no byte together. -/
theorem Owns.translate_inj (h : Owns m pgds) (hp : p ∈ pgds) (hq : q ∈ pgds)
    (hx : m.translate p addr = some x) (hy : m.translate q y = some x) : p = q := by
  obtain ⟨live, nG, nT, nU, hserves, rfl⟩ := h
  obtain ⟨hvalid, hfirst⟩ := translate_eq_some.mp hx
  obtain ⟨hvalid', hsecond⟩ := translate_eq_some.mp hy
  obtain ⟨hdir, hpte⟩ := hserves.mapped hp (and_mask_lt _) (and_mask_lt _) hvalid
  obtain ⟨hdir', hpte'⟩ := hserves.mapped hq (and_mask_lt _) (and_mask_lt _) hvalid'
  obtain ⟨haligned, _⟩ := hserves.pools.frame (hserves.refs.pte_mem _ _ hpte)
  obtain ⟨haligned', _⟩ := hserves.pools.frame (hserves.refs.pte_mem _ _ hpte')
  rw [Memory.word] at hfirst hsecond
  rw [pageSize] at haligned haligned' hfirst hsecond
  obtain ⟨htable, _⟩ := hserves.refs.pte_inj _ _ _ _ hpte hpte' (by omega)
  exact (hserves.refs.dir_inj _ _ _ _ hdir hdir' htable).1

end Translate

/-! ## Page faults -/

/-- The frame is one of the first `n` freed ones, or nobody has had it. -/
def Takes (c : PageCtrl) (n f : Nat) : Prop :=
  f ∈ c.freePages.take n ∨ c.nextPageAddr ≤ f

theorem Takes.mono {c : PageCtrl} {n n' f : Nat} (h : Takes c n f) (hn : n ≤ n') :
    Takes c n' f :=
  h.imp_left fun hmem => List.take_subset_take_left c.freePages hn hmem

theorem allocPage_takes (c : PageCtrl) : Takes c 1 (allocPage c).1 := by
  unfold allocPage
  split
  · rename_i hfree
    rw [Takes, hfree]
    exact Or.inl (List.mem_cons_self ..)
  · exact Or.inr le_rfl

/-- What a pool gives out after an allocation, it could have given out before. -/
theorem Takes.of_allocPage {c : PageCtrl} {n f : Nat} (h : Takes (allocPage c).2 n f)
    (hnext : c.nextPageAddr ≤ (allocPage c).2.nextPageAddr) : Takes c (n + 1) f := by
  rcases h with hmem | hle
  · unfold allocPage at hmem
    split at hmem
    · rename_i hfree
      rw [Takes, hfree]
      exact Or.inl (List.mem_cons_of_mem _ hmem)
    · rename_i hfree
      simp [hfree] at hmem
  · exact Or.inr (hnext.trans hle)

section Fault

variable {m : Memory} {live : Live} {nG nT nU p a b t j addr : Nat} {pgds : Finset Nat}

theorem fillEntry_of_ne (hb : b ≠ j) : (m.fillEntry t j).tables t b = m.tables t b := by
  unfold Memory.fillEntry
  split
  · simp [Memory.doPageFault, Memory.setEntry, hb]
  · rfl

theorem fillEntry_of_valid (hvalid : pteValid (m.tables t j)) : m.fillEntry t j = m :=
  if_neg hvalid

theorem fillEntry_pageCtrlUser (hinvalid : ¬ pteValid (m.tables t j)) :
    (m.fillEntry t j).pageCtrlUser = (allocPage m.pageCtrlUser).2 := by
  rw [Memory.fillEntry, if_pos (not_not.mp hinvalid)]
  rfl

/-- The entry that is filled has the frame of `alloc_page`. -/
theorem Serves.frame_fillEntry (h : Serves m live nG nT nU)
    (hr : (m.fillEntry t j).pageCtrlUser.nextPageAddr ≤ 2 ^ 36)
    (hinvalid : ¬ pteValid (m.tables t j)) :
    frameOf ((m.fillEntry t j).tables t j) = (allocPage m.pageCtrlUser).1 := by
  rw [fillEntry_pageCtrlUser hinvalid] at hr
  obtain ⟨_, nU', hpools⟩ := h.pools.allocUser hr
  obtain ⟨haligned, hlt⟩ := hpools.frame (Finset.mem_insert_self _ _)
  rw [Memory.fillEntry, if_pos (not_not.mp hinvalid)]
  simp only [Memory.doPageFault, Memory.setEntry, Function.update_self]
  exact frameOf_entryLo haligned hlt

/-- An entry that `fillEntry` changes gets the next frame. -/
theorem Serves.takes_fillEntry (h : Serves m live nG nT nU)
    (hr : (m.fillEntry t j).pageCtrlUser.nextPageAddr ≤ 2 ^ 36) (b : Nat) :
    (m.fillEntry t j).tables t b = m.tables t b ∨
      b = j ∧ ¬ pteValid (m.tables t j) ∧
        Takes m.pageCtrlUser 1 (frameOf ((m.fillEntry t j).tables t j)) := by
  by_cases hb : b = j
  · by_cases hvalid : pteValid (m.tables t j)
    · exact Or.inl (by rw [fillEntry_of_valid hvalid])
    · refine Or.inr ⟨hb, hvalid, ?_⟩
      rw [h.frame_fillEntry hr hvalid]
      exact allocPage_takes _
  · exact Or.inl (fillEntry_of_ne hb)

/-- The two entries of a pair are filled one after the other. -/
theorem Serves.takes_pair (h : Serves m live nG nT nU)
    (ht : ∃ p i, m.Dir live.pgds p i ∧ m.tables p i = t)
    (hr : ((m.fillEntry t j).fillEntry t (j + 1)).pageCtrlUser.nextPageAddr ≤ 2 ^ 36) (b : Nat) :
    ((m.fillEntry t j).fillEntry t (j + 1)).tables t b = m.tables t b ∨
      Takes m.pageCtrlUser ((if pteValid (m.tables t j) then 0 else 1) +
          if pteValid (m.tables t (j + 1)) then 0 else 1)
        (frameOf (((m.fillEntry t j).fillEntry t (j + 1)).tables t b)) := by
  obtain ⟨hle, hnext, hsize⟩ := fillEntry_next_le (t := t) (j := j) h.pools.user_next_le
    (by omega) h.pools.user_start.2
  obtain ⟨hle', _⟩ := fillEntry_next_le (t := t) (j := j + 1) hnext (by rw [pageSize]; omega) hsize
  obtain ⟨live', nU', h', _⟩ := h.fillEntry (j := j) ht (hle'.trans hr)
  have hfirst := h.takes_fillEntry (hle'.trans hr)
  have hsecond := h'.takes_fillEntry hr b
  have hkept : (m.fillEntry t j).tables t (j + 1) = m.tables t (j + 1) :=
    fillEntry_of_ne (by omega)
  rcases hsecond with heq | ⟨rfl, hinvalid, htakes⟩
  · rw [heq]
    rcases hfirst b with heq' | ⟨rfl, hinvalid, htakes⟩
    · exact Or.inl heq'
    · refine Or.inr (htakes.mono ?_)
      rw [if_neg hinvalid]
      omega
  · rw [hkept] at hinvalid
    rw [if_neg hinvalid]
    refine Or.inr ?_
    by_cases hvalid : pteValid (m.tables t j)
    · rw [fillEntry_of_valid hvalid] at htakes ⊢
      rw [if_pos hvalid]
      exact htakes
    · rw [fillEntry_pageCtrlUser hvalid] at htakes hle
      rw [if_neg hvalid]
      exact htakes.of_allocPage hle

/-- An entry that a page fault changes has a freed frame that the fault takes, or a
frame that nobody has had. -/
theorem Owns.takes_doTlbRefill (h : Owns m pgds) (hpgd : m.currentPgd ∈ pgds)
    (hr : (m.doTlbRefill addr).InRange) (hp : p ∈ pgds) (ha : a < numEntry) (b : Nat) :
    (m.doTlbRefill addr).word p a b = m.word p a b ∨
      Takes m.pageCtrlUser (m.missing addr) (frameOf ((m.doTlbRefill addr).word p a b)) := by
  obtain ⟨live, nG, nT, nU, hserves, rfl⟩ := h
  obtain ⟨hruser, hrpt⟩ := hr
  simp only [Memory.doTlbRefill] at hruser hrpt ⊢
  rw [fillEntry_pageCtrlPt, fillEntry_pageCtrlPt] at hrpt
  obtain ⟨live₁, nT₁, h₁, hpgds, hdir, hentry⟩ :=
    hserves.tableFor hpgd (and_mask_lt (addr >>> 22)) hrpt
  have hword : ∀ {p a}, p ∈ live.pgds → a < numEntry → ∀ b,
      (m.tableFor ((addr >>> 22) &&& 0x3ff)).2.word p a b = m.word p a b :=
    fun hp ha b => hserves.word_tableFor hpgd hrpt hp ha b
  have hmissing : m.missing addr =
      (if pteValid ((m.tableFor ((addr >>> 22) &&& 0x3ff)).2.tables
          (m.tableFor ((addr >>> 22) &&& 0x3ff)).1 ((addr >>> 12) &&& 0x3fe)) then 0 else 1) +
        if pteValid ((m.tableFor ((addr >>> 22) &&& 0x3ff)).2.tables
          (m.tableFor ((addr >>> 22) &&& 0x3ff)).1 (((addr >>> 12) &&& 0x3fe) + 1)) then 0
        else 1 := by
    rw [Memory.missing, ← hword hpgd (and_mask_lt _), ← hword hpgd (and_mask_lt _),
      Memory.word, Memory.word, hentry]
  rw [← hword hp ha, hmissing, ← tableFor_pageCtrlUser m ((addr >>> 22) &&& 0x3ff)]
  rw [← hpgds] at hp hdir
  generalize (m.tableFor ((addr >>> 22) &&& 0x3ff)).2 = m₁ at *
  generalize (m.tableFor ((addr >>> 22) &&& 0x3ff)).1 = t at *
  have hpt : p ≠ t := by
    rintro rfl
    exact h₁.pools.disjoint hp (hentry ▸ h₁.refs.dir_mem _ _ hdir)
  rw [Memory.word, Memory.word, tables_fillEntry hpt, tables_fillEntry hpt]
  by_cases htable : m₁.tables p a = t
  · rw [htable]
    exact h₁.takes_pair ⟨_, _, hdir, hentry⟩ hruser b
  · rw [tables_fillEntry htable, tables_fillEntry htable]
    exact Or.inl rfl

/-! ## The frames that have been carved -/

/-- A page fault carves frames and leaves those that are carved. -/
theorem Owns.next_le_doTlbRefill (h : Owns m pgds) (addr : Nat) :
    m.pageCtrlUser.nextPageAddr ≤ (m.doTlbRefill addr).pageCtrlUser.nextPageAddr := by
  obtain ⟨live, nG, nT, nU, hserves, rfl⟩ := h
  have hnext := hserves.pools.user_next_le
  have hsize := hserves.pools.user_start.2
  rw [← tableFor_pageCtrlUser m ((addr >>> 22) &&& 0x3ff)] at hnext hsize ⊢
  simp only [Memory.doTlbRefill]
  generalize (m.tableFor ((addr >>> 22) &&& 0x3ff)).2 = m₁ at *
  generalize (m.tableFor ((addr >>> 22) &&& 0x3ff)).1 = t at *
  obtain ⟨hle, hnext', hsize'⟩ := fillEntry_next_le (t := t) (j := (addr >>> 12) &&& 0x3fe) hnext
    (by omega) hsize
  obtain ⟨hle', _⟩ := fillEntry_next_le (t := t) (j := ((addr >>> 12) &&& 0x3fe) + 1) hnext'
    (by rw [pageSize]; omega) hsize'
  exact hle.trans hle'

theorem freePgd_userNext (m : Memory) (pgd : Nat) :
    (m.freePgd pgd).pageCtrlUser.nextPageAddr = m.pageCtrlUser.nextPageAddr := by
  have hframes : ∀ (m : Memory) t k,
      (m.freeSome t k).pageCtrlUser.nextPageAddr = m.pageCtrlUser.nextPageAddr := by
    intro m t k
    induction k with
    | zero => rfl
    | succ k ih =>
      rw [freeSome_succ, Memory.freeFrame]
      split
      · rw [← ih]
        exact freePage_nextPageAddr _ _
      · exact ih
  have htable : ∀ (m : Memory) (c : PageCtrl),
      ({ m with pageCtrlPt := c } : Memory).pageCtrlUser = m.pageCtrlUser := fun _ _ => rfl
  have hloop : ∀ k,
      (m.freeTables pgd k).pageCtrlUser.nextPageAddr = m.pageCtrlUser.nextPageAddr := by
    intro k
    induction k with
    | zero => rfl
    | succ k ih =>
      rw [freeTables_succ, freeTable_eq, freeFrames_eq, ← ih]
      split
      · rw [htable, hframes]
      · rfl
  have hset : ∀ (m : Memory) (c : PageCtrl),
      ({ m with pageCtrlPgd := c } : Memory).pageCtrlUser = m.pageCtrlUser := fun _ _ => rfl
  rw [freePgd_eq, hset, hloop]

/-! ## Directories with few entries -/

/-- Entries that are not valid give no frame back. -/
theorem freeSome_skip {k l : Nat} (hkl : k ≤ l)
    (hinvalid : ∀ j, k ≤ j → ¬ pteValid ((m.freeSome t k).tables t j)) :
    m.freeSome t l = m.freeSome t k := by
  induction l, hkl using Nat.le_induction with
  | base => rfl
  | succ l hkl ih =>
    rw [freeSome_succ, ih]
    exact if_neg (hinvalid l hkl)

/-- Empty entries give no page table back. -/
theorem freeTables_skip {pgd k l : Nat} (hkl : k ≤ l)
    (hempty : ∀ i, k ≤ i →
      (m.freeTables pgd k).tables pgd i = (m.freeTables pgd k).globalEmptyPt) :
    m.freeTables pgd l = m.freeTables pgd k := by
  induction l, hkl using Nat.le_induction with
  | base => rfl
  | succ l hkl ih =>
    rw [freeTables_succ, ih, freeTable_eq, if_neg (not_not.mpr (hempty l hkl))]

end Fault

end MipsOs.Mm
