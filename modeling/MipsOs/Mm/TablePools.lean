import MipsOs.Mm.Translation

/-!
# The pool of page tables below a limit

The page directories and the page tables do not depend on the frames that the
entries of the tables map.  So `Owns` of a memory that has the same directories
(`SameTables`) tells who owns a page table, for any number of frames.

`OwnsTables limit` adds that the pool of page tables has stayed below `limit`.
A page fault keeps it when it needs no new table, when a freed table is left, or
when the next table ends below the limit (`Memory.TableFits`).
-/

namespace MipsOs.Mm

/-- The pools of the directories and the tables and the content of the
directories `pgds` are the same. -/
structure SameTables (pgds : Finset Nat) (m m' : Memory) : Prop where
  pageCtrlPgd : m'.pageCtrlPgd = m.pageCtrlPgd
  pageCtrlPt : m'.pageCtrlPt = m.pageCtrlPt
  currentPgd : m'.currentPgd = m.currentPgd
  globalEmptyPt : m'.globalEmptyPt = m.globalEmptyPt
  tables : ∀ p ∈ pgds, m'.tables p = m.tables p

/-- The page tables of the directories `pgds` have one owner each, and their
pool is below the limit. -/
def OwnsTables (limit : Nat) (m : Memory) (pgds : Finset Nat) : Prop :=
  (∃ m', SameTables pgds m m' ∧ Owns m' pgds) ∧
    ptStart ≤ m.pageCtrlPt.nextPageAddr ∧ m.pageCtrlPt.nextPageAddr ≤ limit

/-- A page fault at the address needs no new page table, or the pool has one
that ends below the limit. -/
def Memory.TableFits (limit : Nat) (m : Memory) (addr : Nat) : Prop :=
  m.tables m.currentPgd ((addr >>> 22) &&& 0x3ff) = m.globalEmptyPt →
    m.pageCtrlPt.freePages = [] → m.pageCtrlPt.nextPageAddr + tableSize ≤ limit

instance (limit : Nat) (m : Memory) (addr : Nat) : Decidable (m.TableFits limit addr) :=
  inferInstanceAs (Decidable (_ → _ → _))

section Operations

variable {m m' : Memory} {pgds : Finset Nat} {limit pgd : Nat}

theorem SameTables.refl (pgds : Finset Nat) (m : Memory) : SameTables pgds m m :=
  ⟨rfl, rfl, rfl, rfl, fun _ _ => rfl⟩

theorem OwnsTables.setCurrentPgd (h : OwnsTables limit m pgds) (pgd : Nat) :
    OwnsTables limit { m with currentPgd := pgd } pgds := by
  obtain ⟨⟨m', hsame, howns⟩, hrange⟩ := h
  refine ⟨⟨{ m' with currentPgd := pgd }, ?_, howns.setCurrentPgd⟩, hrange⟩
  exact ⟨hsame.pageCtrlPgd, hsame.pageCtrlPt, rfl, hsame.globalEmptyPt, hsame.tables⟩

/-! ## New directories -/

theorem SameTables.spawnPgd (h : SameTables pgds m m') :
    SameTables (insert (allocPage m.pageCtrlPgd).1 pgds) m.spawnPgd m'.spawnPgd := by
  have hnew : (allocPage m'.pageCtrlPgd) = allocPage m.pageCtrlPgd := by rw [h.pageCtrlPgd]
  refine ⟨?_, h.pageCtrlPt, h.currentPgd, h.globalEmptyPt, fun p hp => ?_⟩
  · show (allocPage m'.pageCtrlPgd).2 = (allocPage m.pageCtrlPgd).2
    rw [hnew]
  · show Function.update m'.tables (allocPage m'.pageCtrlPgd).1 (fun _ => m'.globalEmptyPt) p =
      Function.update m.tables (allocPage m.pageCtrlPgd).1 (fun _ => m.globalEmptyPt) p
    rw [hnew, h.globalEmptyPt]
    by_cases hpa : p = (allocPage m.pageCtrlPgd).1
    · rw [hpa, Function.update_self, Function.update_self]
    · rw [Function.update_of_ne hpa, Function.update_of_ne hpa]
      exact h.tables p ((Finset.mem_insert.mp hp).resolve_left hpa)

theorem OwnsTables.newPgd (h : OwnsTables limit m pgds) (hcard : pgds.card ≤ 30) :
    (allocPage m.pageCtrlPgd).1 ∉ pgds ∧
      OwnsTables limit m.spawnPgd (insert (allocPage m.pageCtrlPgd).1 pgds) := by
  obtain ⟨⟨m', hsame, howns⟩, hrange⟩ := h
  obtain ⟨hfresh, howns'⟩ := howns.newPgd hcard
  rw [hsame.pageCtrlPgd] at hfresh howns'
  exact ⟨hfresh, ⟨m'.spawnPgd, hsame.spawnPgd, howns'⟩, hrange⟩

/-! ## The end of a process -/

/-- The inner loop of `free_proc` changes the pool of frames only. -/
theorem freeSome_user (m : Memory) (t k : Nat) :
    ∃ c, m.freeSome t k = { m with pageCtrlUser := c } := by
  induction k with
  | zero => exact ⟨m.pageCtrlUser, rfl⟩
  | succ k ih =>
    obtain ⟨c, hc⟩ := ih
    rw [freeSome_succ, hc]
    unfold Memory.freeFrame
    split
    · exact ⟨_, rfl⟩
    · exact ⟨c, rfl⟩

/-- The outer loop gives the table in the entry back. -/
theorem freeTable_pools (m : Memory) (pgd i : Nat) :
    ∃ c, m.freeTable pgd i = { m with
      pageCtrlUser := c
      pageCtrlPt := if m.tables pgd i ≠ m.globalEmptyPt then
        freePage m.pageCtrlPt (m.tables pgd i) else m.pageCtrlPt } := by
  rw [freeTable_eq, freeFrames_eq]
  obtain ⟨c, hc⟩ := freeSome_user m (m.tables pgd i) numEntry
  rw [hc]
  split
  · exact ⟨c, rfl⟩
  · exact ⟨m.pageCtrlUser, rfl⟩

theorem SameTables.freeTable (h : SameTables pgds m m') (hpgd : pgd ∈ pgds) (i : Nat) :
    SameTables pgds (m.freeTable pgd i) (m'.freeTable pgd i) := by
  obtain ⟨c, hc⟩ := freeTable_pools m pgd i
  obtain ⟨c', hc'⟩ := freeTable_pools m' pgd i
  rw [hc, hc']
  refine ⟨h.pageCtrlPgd, ?_, h.currentPgd, h.globalEmptyPt, h.tables⟩
  simp only [h.pageCtrlPt, h.globalEmptyPt, h.tables pgd hpgd]

theorem SameTables.dropPgd (h : SameTables pgds m m') (pgd : Nat) :
    SameTables (pgds.erase pgd) { m with pageCtrlPgd := freePage m.pageCtrlPgd pgd }
      { m' with pageCtrlPgd := freePage m'.pageCtrlPgd pgd } := by
  refine ⟨?_, h.pageCtrlPt, h.currentPgd, h.globalEmptyPt,
    fun p hp => h.tables p (Finset.mem_of_mem_erase hp)⟩
  show freePage m'.pageCtrlPgd pgd = freePage m.pageCtrlPgd pgd
  rw [h.pageCtrlPgd]

theorem SameTables.freePgd (h : SameTables pgds m m') (hpgd : pgd ∈ pgds) :
    SameTables (pgds.erase pgd) (m.freePgd pgd) (m'.freePgd pgd) := by
  have hloop : ∀ k, SameTables pgds (m.freeTables pgd k) (m'.freeTables pgd k) := by
    intro k
    induction k with
    | zero => exact h
    | succ k ih =>
      rw [freeTables_succ, freeTables_succ]
      exact ih.freeTable hpgd k
  rw [freePgd_eq, freePgd_eq]
  exact (hloop numEntry).dropPgd pgd

theorem freePgd_nextPageAddr (m : Memory) (pgd : Nat) :
    (m.freePgd pgd).pageCtrlPt.nextPageAddr = m.pageCtrlPt.nextPageAddr := by
  have hloop : ∀ k, (m.freeTables pgd k).pageCtrlPt.nextPageAddr =
      m.pageCtrlPt.nextPageAddr := by
    intro k
    induction k with
    | zero => rfl
    | succ k ih =>
      obtain ⟨c, hc⟩ := freeTable_pools (m.freeTables pgd k) pgd k
      rw [freeTables_succ, hc, ← ih]
      show PageCtrl.nextPageAddr (if _ then _ else _) = _
      split
      · exact freePage_nextPageAddr _ _
      · rfl
  have hset : ∀ (m : Memory) (c : PageCtrl),
      ({ m with pageCtrlPgd := c } : Memory).pageCtrlPt = m.pageCtrlPt := fun _ _ => rfl
  rw [freePgd_eq, hset, hloop]

theorem OwnsTables.freePgd (h : OwnsTables limit m pgds) (hpgd : pgd ∈ pgds) :
    OwnsTables limit (m.freePgd pgd) (pgds.erase pgd) := by
  obtain ⟨⟨m', hsame, howns⟩, hstart, hlimit⟩ := h
  refine ⟨⟨m'.freePgd pgd, hsame.freePgd hpgd, howns.freePgd hpgd⟩, ?_, ?_⟩
  · rw [freePgd_nextPageAddr]
    exact hstart
  · rw [freePgd_nextPageAddr]
    exact hlimit

/-! ## Page faults -/

/-- Filling an entry changes the page table only. -/
theorem fillEntry_other (m : Memory) (t j : Nat) :
    (m.fillEntry t j).pageCtrlPgd = m.pageCtrlPgd ∧
      (m.fillEntry t j).globalEmptyPt = m.globalEmptyPt ∧
      ∀ p, p ≠ t → (m.fillEntry t j).tables p = m.tables p := by
  unfold Memory.fillEntry
  split
  · exact ⟨rfl, rfl, fun p hp => Function.update_of_ne hp _ _⟩
  · exact ⟨rfl, rfl, fun _ _ => rfl⟩

theorem SameTables.fillEntry (h : SameTables pgds m m') {t : Nat} (ht : t ∉ pgds) (j : Nat) :
    SameTables pgds (m.fillEntry t j) m' := by
  obtain ⟨hpgd, hempty, htables⟩ := fillEntry_other m t j
  refine ⟨?_, ?_, ?_, ?_, fun p hp => ?_⟩
  · rw [hpgd]
    exact h.pageCtrlPgd
  · rw [fillEntry_pageCtrlPt]
    exact h.pageCtrlPt
  · rw [fillEntry_currentPgd]
    exact h.currentPgd
  · rw [hempty]
    exact h.globalEmptyPt
  · rw [htables p fun heq => ht (heq ▸ hp)]
    exact h.tables p hp

/-- The entry of the directory is looked up, and filled when it is empty, in the
same way. -/
theorem SameTables.tableFor (h : SameTables pgds m m') (hpgd : m.currentPgd ∈ pgds) (off : Nat) :
    (m'.tableFor off).1 = (m.tableFor off).1 ∧
      SameTables pgds (m.tableFor off).2 (m'.tableFor off).2 := by
  have hentry : m'.tables m'.currentPgd off = m.tables m.currentPgd off := by
    rw [h.currentPgd, h.tables _ hpgd]
  have halloc : allocPage m'.pageCtrlPt = allocPage m.pageCtrlPt := by rw [h.pageCtrlPt]
  unfold Memory.tableFor
  simp only [hentry, h.globalEmptyPt, halloc]
  split
  · refine ⟨rfl, h.pageCtrlPgd, rfl, h.currentPgd, rfl, fun p hp => ?_⟩
    simp only [Memory.setEntry, h.currentPgd, h.tables _ hpgd]
    by_cases hpa : p = (allocPage m.pageCtrlPt).1
    · rw [hpa, Function.update_self, Function.update_self]
    · rw [Function.update_of_ne hpa, Function.update_of_ne hpa]
      by_cases hpc : p = m.currentPgd
      · rw [hpc, Function.update_self, Function.update_self]
      · rw [Function.update_of_ne hpc, Function.update_of_ne hpc]
        exact h.tables p hp
  · exact ⟨rfl, h⟩

/-- The pool after a page fault is still below the limit. -/
theorem tableFor_next (h : OwnsTables limit m pgds) {addr : Nat} (hfits : m.TableFits limit addr)
    (hsize : m.pageCtrlPt.pageSize = tableSize) (hlimit : limit < 2 ^ 64) :
    ptStart ≤ (m.tableFor ((addr >>> 22) &&& 0x3ff)).2.pageCtrlPt.nextPageAddr ∧
      (m.tableFor ((addr >>> 22) &&& 0x3ff)).2.pageCtrlPt.nextPageAddr ≤ limit := by
  obtain ⟨_, hstart, hle⟩ := h
  unfold Memory.tableFor
  simp only
  split
  · rename_i hempty
    show ptStart ≤ (allocPage m.pageCtrlPt).2.nextPageAddr ∧
      (allocPage m.pageCtrlPt).2.nextPageAddr ≤ limit
    have hroom := hfits hempty
    unfold allocPage
    cases hfree : m.pageCtrlPt.freePages with
    | nil =>
      have hnext := hroom hfree
      simp only [hsize]
      rw [Nat.mod_eq_of_lt (by omega)]
      omega
    | cons top rest => exact ⟨hstart, hle⟩
  · exact ⟨hstart, hle⟩

/-- A page fault whose table fits keeps the pool below the limit. -/
theorem OwnsTables.doTlbRefill (h : OwnsTables limit m pgds) (hpgd : m.currentPgd ∈ pgds)
    {addr : Nat} (hfits : m.TableFits limit addr) (hlimit : limit < 2 ^ 64) :
    OwnsTables limit (m.doTlbRefill addr) pgds := by
  obtain ⟨⟨m', hsame, live, nG, nT, nU, hserves, rfl⟩, hrange⟩ := id h
  have hsize : m.pageCtrlPt.pageSize = tableSize := by
    rw [← hsame.pageCtrlPt]
    exact hserves.pools.pt_start.2
  have hnext := tableFor_next h hfits hsize hlimit
  obtain ⟨htable, hsame'⟩ := hsame.tableFor hpgd ((addr >>> 22) &&& 0x3ff)
  obtain ⟨live', nT', hserves', hpgds', hdir, hentry⟩ := hserves.tableFor
    (by rw [hsame.currentPgd]; exact hpgd) (and_mask_lt (addr >>> 22)) (by
      rw [hsame'.pageCtrlPt, physical, ksegStart]
      rw [ptStart] at hnext
      omega)
  have ht : (m.tableFor ((addr >>> 22) &&& 0x3ff)).1 ∉ live.pgds := by
    intro hmem
    rw [← hpgds'] at hdir hmem
    rw [← htable, ← hentry] at hmem
    exact hserves'.pools.disjoint hmem (hserves'.refs.dir_mem _ _ hdir)
  simp only [Memory.doTlbRefill]
  refine ⟨⟨_, (hsame'.fillEntry ht _).fillEntry ht _, live', nG, nT', nU, hserves', hpgds'⟩, ?_⟩
  rw [fillEntry_pageCtrlPt, fillEntry_pageCtrlPt]
  exact hnext

/-! ## Where the pages lie -/

/-- The page directories lie in front of the page tables. -/
theorem OwnsTables.pgd_bounds (h : OwnsTables limit m pgds) {p : Nat} (hp : p ∈ pgds) :
    ∃ k < 31, p = pgdStart + k * tableSize := by
  obtain ⟨⟨m', hsame, live, nG, nT, nU, hserves, rfl⟩, _⟩ := h
  obtain ⟨k, hk, hcarved⟩ := hserves.pools.pgd.live_carved p hp
  have hG := hserves.pools.nG_le
  rw [hserves.pools.pgd_start.1, hserves.pools.pgd_start.2] at hcarved
  refine ⟨k, by omega, ?_⟩
  rw [hcarved, carvedPage, pgdStart, tableSize]
  omega

/-- A page table in use: the shared empty one, or one in an entry. -/
def Memory.Table (m : Memory) (pgds : Finset Nat) (t : Nat) : Prop :=
  t = m.globalEmptyPt ∨ ∃ p i, m.Dir pgds p i ∧ m.tables p i = t

theorem SameTables.dir_iff (h : SameTables pgds m m') (p i : Nat) :
    m'.Dir pgds p i ↔ m.Dir pgds p i := by
  unfold Memory.Dir
  rw [h.globalEmptyPt]
  apply and_congr_right
  intro hp
  rw [h.tables p hp]

/-- The page tables lie below the limit. -/
theorem OwnsTables.table_bounds (h : OwnsTables limit m pgds) {t : Nat}
    (ht : m.Table pgds t) : ∃ k, t = ptStart + k * tableSize ∧ t + tableSize ≤ limit := by
  obtain ⟨⟨m', hsame, live, nG, nT, nU, hserves, rfl⟩, hstart, hle⟩ := h
  have hmem : t ∈ live.pts := by
    rcases ht with rfl | ⟨p, i, hdir, rfl⟩
    · rw [← hsame.globalEmptyPt]
      exact hserves.pools.empty_mem
    · rw [← hsame.tables p hdir.1]
      exact hserves.refs.dir_mem p i ((hsame.dir_iff p i).mpr hdir)
  obtain ⟨k, hk, hcarved⟩ := hserves.pools.pt.live_carved t hmem
  have hnext := hserves.pools.pt.next
  have hT := hserves.pools.nT_le
  rw [hserves.pools.pt_start.1, hserves.pools.pt_start.2] at hcarved hnext
  rw [hsame.pageCtrlPt] at hnext
  rw [hnext] at hstart hle
  rw [carvedPage, ptStart, tableSize] at hcarved hstart hle
  rw [ptStart, tableSize, ksegStart] at hT
  refine ⟨k, ?_, ?_⟩
  · rw [hcarved, ptStart, tableSize]
    omega
  · rw [hcarved, tableSize]
    omega

/-- A page table is in one entry. -/
theorem OwnsTables.dir_inj (h : OwnsTables limit m pgds) {p i p' i' : Nat}
    (hdir : m.Dir pgds p i) (hdir' : m.Dir pgds p' i')
    (heq : m.tables p i = m.tables p' i') : p = p' ∧ i = i' := by
  obtain ⟨⟨m', hsame, live, nG, nT, nU, hserves, rfl⟩, _⟩ := h
  apply hserves.refs.dir_inj p i p' i' ((hsame.dir_iff p i).mpr hdir)
    ((hsame.dir_iff p' i').mpr hdir')
  rw [hsame.tables p hdir.1, hsame.tables p' hdir'.1]
  exact heq

/-! ## The pool runs on -/

/-- A page fault of a missing table takes the next page of the pool, when no freed
page is left. -/
theorem doTlbRefill_carve (hfree : m.pageCtrlPt.freePages = []) {addr j : Nat}
    (hj : (addr >>> 22) &&& 0x3ff = j) (hempty : m.tables m.currentPgd j = m.globalEmptyPt) :
    (m.doTlbRefill addr).pageCtrlPt = { m.pageCtrlPt with
        nextPageAddr := (m.pageCtrlPt.nextPageAddr + m.pageCtrlPt.pageSize) % 2 ^ 64 } ∧
      (m.doTlbRefill addr).globalEmptyPt = m.globalEmptyPt ∧
      ∀ p, p ≠ m.pageCtrlPt.nextPageAddr → (m.doTlbRefill addr).tables p =
        if p = m.currentPgd then
          Function.update (m.tables p) j m.pageCtrlPt.nextPageAddr
        else m.tables p := by
  have halloc : allocPage m.pageCtrlPt = (m.pageCtrlPt.nextPageAddr, { m.pageCtrlPt with
      nextPageAddr := (m.pageCtrlPt.nextPageAddr + m.pageCtrlPt.pageSize) % 2 ^ 64 }) := by
    simp only [allocPage, hfree]
  have htable : m.tableFor j = (m.pageCtrlPt.nextPageAddr,
      { m with
        pageCtrlPt := (allocPage m.pageCtrlPt).2
        tables := Function.update ({ m with pageCtrlPt := (allocPage m.pageCtrlPt).2 }.setEntry
          m.currentPgd j m.pageCtrlPt.nextPageAddr).tables m.pageCtrlPt.nextPageAddr
          fun _ => 0 }) := by
    simp only [Memory.tableFor, hempty, if_true, halloc]
    rfl
  simp only [Memory.doTlbRefill, hj, htable]
  refine ⟨?_, ?_, fun p hp => ?_⟩
  · rw [fillEntry_pageCtrlPt, fillEntry_pageCtrlPt, halloc]
  · rw [(fillEntry_other _ _ _).2.1, (fillEntry_other _ _ _).2.1]
  · rw [tables_fillEntry hp, tables_fillEntry hp]
    simp only [Function.update_of_ne hp, Memory.setEntry]
    by_cases hpc : p = m.currentPgd
    · rw [if_pos hpc, hpc, Function.update_self]
    · rw [if_neg hpc, Function.update_of_ne hpc]

/-- After `n` page faults of missing tables: the tables lie one behind the other. -/
structure TablesFilled (m m' : Memory) (n : Nat) : Prop where
  currentPgd : m'.currentPgd = m.currentPgd
  globalEmptyPt : m'.globalEmptyPt = m.globalEmptyPt
  freePages : m'.pageCtrlPt.freePages = []
  pageSize : m'.pageCtrlPt.pageSize = tableSize
  next : m'.pageCtrlPt.nextPageAddr = m.pageCtrlPt.nextPageAddr + n * tableSize
  other : ∀ p < m.pageCtrlPt.nextPageAddr, p ≠ m.currentPgd → m'.tables p = m.tables p
  missing : ∀ j, n ≤ j → m'.tables m.currentPgd j = m.tables m.currentPgd j
  filled : ∀ j < n, m'.tables m.currentPgd j = m.pageCtrlPt.nextPageAddr + j * tableSize

theorem TablesFilled.succ {n : Nat} (h : TablesFilled m m' n)
    (hcur : m.currentPgd < m.pageCtrlPt.nextPageAddr)
    (hempty : m.tables m.currentPgd n = m.globalEmptyPt) (hn : n < numEntry)
    (hroom : m.pageCtrlPt.nextPageAddr + (n + 1) * tableSize < 2 ^ 64) :
    TablesFilled m (m'.doTlbRefill (n <<< 22)) (n + 1) := by
  have hj : (n <<< 22 >>> 22) &&& 0x3ff = n := by
    rw [Nat.shiftLeft_shiftRight, show 0x3ff = 2 ^ 10 - 1 from rfl, Nat.and_two_pow_sub_one_eq_mod]
    exact Nat.mod_eq_of_lt hn
  have hmissing : m'.tables m'.currentPgd n = m'.globalEmptyPt := by
    rw [h.currentPgd, h.globalEmptyPt, h.missing n le_rfl, hempty]
  obtain ⟨hpool, hglobal, htables⟩ := doTlbRefill_carve h.freePages hj hmissing
  rw [h.next, h.pageSize] at hpool
  rw [h.next, h.currentPgd] at htables
  refine ⟨?_, hglobal.trans h.globalEmptyPt, ?_, ?_, ?_, fun p hp hne => ?_, fun j hjn => ?_,
    fun j hjn => ?_⟩
  · rw [doTlbRefill_currentPgd, h.currentPgd]
  · rw [hpool]
    exact h.freePages
  · rw [hpool]
    exact h.pageSize
  · rw [hpool, Nat.succ_mul, ← Nat.add_assoc]
    apply Nat.mod_eq_of_lt
    rw [Nat.succ_mul] at hroom
    omega
  · rw [htables p (by omega), if_neg hne, h.other p hp hne]
  · rw [htables _ (by omega), if_pos rfl, Function.update_of_ne (by omega), h.missing j (by omega)]
  · rw [htables _ (by omega), if_pos rfl]
    by_cases hlast : j = n
    · rw [hlast, Function.update_self]
    · rw [Function.update_of_ne hlast, h.filled j (by omega)]

end Operations

end MipsOs.Mm
