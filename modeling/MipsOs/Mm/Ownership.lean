import MipsOs.Mm.Memory

/-!
# Who owns a page

`Owns m pgds` says that the memory `m` serves the page directories `pgds`.
No page table is in two entries of page directories, no frame is in two valid
entries of page tables, and no page in use is free.  The shared empty page
table is the exception: it stays all zero and can be in any number of entries.

The directories, the tables and the frames are handed out by three pools.
`Refs` relates what the entries say to what the pools have handed out.  It is
stated for a part of the entries, because the loops of `free_proc` give the
pages of a directory back one by one and leave the entries as they are.

The results are one lemma for each operation: `Owns.newPgd`,
`Owns.doTlbRefill` and `Owns.freePgd`.
-/

namespace MipsOs.Mm

/-! ## Page table entries -/

/-- The frame that `free_proc` reads from a page table entry. -/
def frameOf (pte : Nat) : Nat := ((pte >>> 6) &&& 0xFFFFFF) <<< 12

/-- The valid bit of a page table entry. -/
def pteValid (pte : Nat) : Prop := pte &&& 0x2 ≠ 0

instance (pte : Nat) : Decidable (pteValid pte) := inferInstanceAs (Decidable (_ ≠ _))

theorem not_pteValid_zero : ¬ pteValid 0 := by decide

/-- The entry that `do_page_fault` writes. -/
theorem entryLo_eq {pfn : Nat} (h : pfn < 2 ^ 24) :
    entryLo pfn 2 1 1 0 = (pfn <<< 6) ||| 0x16 := by
  have hand : pfn &&& 0xFFFFFF = pfn := by
    rw [show 0xFFFFFF = 2 ^ 24 - 1 from rfl, Nat.and_two_pow_sub_one_eq_mod,
      Nat.mod_eq_of_lt h]
  rw [entryLo, hand]
  simp [Nat.or_assoc]

/-- `free_proc` reads the frame that `do_page_fault` wrote, when the frame is
aligned and below 2^36. -/
theorem frameOf_entryLo {addr : Nat} (haligned : pageSize ∣ addr) (hlt : addr < 2 ^ 36) :
    frameOf (entryLo (addr >>> 12) 2 1 1 0) = addr := by
  obtain ⟨pfn, rfl⟩ := haligned
  have hpfn : (pageSize * pfn) >>> 12 = pfn := by
    rw [Nat.shiftRight_eq_div_pow, pageSize]
    omega
  have hsmall : pfn < 2 ^ 24 := by
    rw [pageSize] at hlt
    omega
  rw [hpfn, entryLo_eq hsmall, frameOf, Nat.shiftRight_or_distrib, Nat.shiftLeft_shiftRight,
    show 0x16 >>> 6 = 0 from rfl, Nat.or_zero, show 0xFFFFFF = 2 ^ 24 - 1 from rfl,
    Nat.and_two_pow_sub_one_eq_mod, Nat.mod_eq_of_lt hsmall, Nat.shiftLeft_eq, pageSize]
  omega

theorem pteValid_entryLo {pfn : Nat} (h : pfn < 2 ^ 24) : pteValid (entryLo pfn 2 1 1 0) := by
  rw [pteValid, entryLo_eq h, Nat.and_or_distrib_right]
  intro hzero
  have := (Nat.or_eq_zero_iff.mp hzero).2
  exact absurd this (by decide)

/-! ## The pools -/

/-- The start of the unmapped addresses of the kernel. -/
def ksegStart : Nat := 0xffffffffa0000000

/-- The physical address behind an unmapped address. -/
def physical (addr : Nat) : Nat := (addr + 2 ^ 64 - ksegStart) % 2 ^ 64

/-- The physical addresses of the frames and of the page tables handed out so
far are below 2^36.  The pools hand out what is below `next_page_addr`. -/
def Memory.InRange (m : Memory) : Prop :=
  m.pageCtrlUser.nextPageAddr ≤ 2 ^ 36 ∧ physical m.pageCtrlPt.nextPageAddr ≤ 2 ^ 36

instance (m : Memory) : Decidable m.InRange := inferInstanceAs (Decidable (_ ∧ _))

/-- The live pages of the three pools. -/
structure Live where
  pgds : Finset Nat
  pts : Finset Nat
  frames : Finset Nat

/-- The pools have handed out the live pages, at most 31 page directories, and
no address beyond 2^36. -/
structure Pools (m : Memory) (live : Live) (nG nT nU : Nat) : Prop where
  pgd : Exact m.pageCtrlPgd nG live.pgds
  pt : Owned m.pageCtrlPt nT live.pts
  user : Owned m.pageCtrlUser nU live.frames
  pgd_start : m.pageCtrlPgd.startAddr = pgdStart ∧ m.pageCtrlPgd.pageSize = tableSize
  pt_start : m.pageCtrlPt.startAddr = ptStart ∧ m.pageCtrlPt.pageSize = tableSize
  user_start : m.pageCtrlUser.startAddr = userStart ∧ m.pageCtrlUser.pageSize = pageSize
  nG_le : nG ≤ 31
  nT_le : ptStart + nT * tableSize ≤ ksegStart + 2 ^ 36
  nU_le : userStart + nU * pageSize ≤ 2 ^ 36
  empty_mem : m.globalEmptyPt ∈ live.pts

section Pools

variable {m : Memory} {live : Live} {nG nT nU : Nat}

/-- No page directory is a page table. -/
theorem Pools.disjoint (h : Pools m live nG nT nU) {a : Nat} (ha : a ∈ live.pgds) :
    a ∉ live.pts := by
  intro ha'
  obtain ⟨k, hk, hpgd⟩ := h.pgd.live_carved a ha
  obtain ⟨l, hl, hpt⟩ := h.pt.live_carved a ha'
  have hG := h.nG_le
  have hT := h.nT_le
  rw [h.pgd_start.1, h.pgd_start.2, carvedPage, pgdStart, tableSize] at hpgd
  rw [h.pt_start.1, h.pt_start.2, carvedPage, ptStart, tableSize] at hpt
  rw [ptStart, tableSize, ksegStart] at hT
  omega

theorem tableSize_dvd : tableSize ∣ 2 ^ 64 := by decide

theorem pageSize_dvd : pageSize ∣ 2 ^ 64 := by decide

theorem regular_pgd {n : Nat} (hn : n ≤ 32) : Regular pgdStart tableSize n := by
  refine regular_of_dvd (by decide) (by decide) tableSize_dvd ?_
  rw [tableSize]
  omega

theorem regular_pt {n : Nat} (hn : n * tableSize ≤ 2 ^ 37) : Regular ptStart tableSize n :=
  regular_of_dvd (by decide) (by decide) tableSize_dvd (by omega)

theorem regular_user {n : Nat} (hn : n * pageSize ≤ 2 ^ 37) : Regular userStart pageSize n :=
  regular_of_dvd (by decide) (by decide) pageSize_dvd (by omega)

theorem Pools.user_next_le (h : Pools m live nG nT nU) :
    m.pageCtrlUser.nextPageAddr ≤ 2 ^ 36 := by
  have hU := h.nU_le
  rw [h.user.next, h.user_start.1, h.user_start.2]
  exact (Nat.mod_le _ _).trans hU

/-- A live frame is aligned and below 2^36. -/
theorem Pools.frame (h : Pools m live nG nT nU) {f : Nat} (hf : f ∈ live.frames) :
    pageSize ∣ f ∧ f < 2 ^ 36 := by
  obtain ⟨k, hk, hcarved⟩ := h.user.live_carved f hf
  have hU := h.nU_le
  have hdvd := h.user.regular.dvd k hk
  rw [h.user_start.1, h.user_start.2] at hdvd hcarved
  refine ⟨hcarved ▸ hdvd, ?_⟩
  rw [carvedPage, userStart, pageSize] at hcarved
  rw [userStart, pageSize] at hU
  omega

end Pools

/-! ## The entries -/

/-- What a part of the entries has to do with the live pages: `dir p i` are
entries of page directories and `pte t j` are entries of page tables. -/
structure Refs (m : Memory) (dir pte : Nat → Nat → Prop) (live : Live) : Prop where
  dir_mem : ∀ p i, dir p i → m.tables p i ∈ live.pts
  dir_ne : ∀ p i, dir p i → m.tables p i ≠ m.globalEmptyPt
  dir_inj : ∀ p i p' i', dir p i → dir p' i' → m.tables p i = m.tables p' i' →
    p = p' ∧ i = i'
  pte_table : ∀ t j, pte t j → t ∈ live.pts
  pte_mem : ∀ t j, pte t j → frameOf (m.tables t j) ∈ live.frames
  pte_inj : ∀ t j t' j', pte t j → pte t' j' →
    frameOf (m.tables t j) = frameOf (m.tables t' j') → t = t' ∧ j = j'

section Refs

variable {m m' : Memory} {dir dir' pte pte' : Nat → Nat → Prop} {live live' : Live}

/-- Fewer entries, with the same content, and more live pages. -/
theorem Refs.congr (h : Refs m dir pte live)
    (hdir : ∀ p i, dir' p i → dir p i ∧ m'.tables p i = m.tables p i)
    (hpte : ∀ t j, pte' t j → pte t j ∧ m'.tables t j = m.tables t j)
    (hempty : m'.globalEmptyPt = m.globalEmptyPt)
    (hpts : ∀ p i, dir' p i → m.tables p i ∈ live.pts → m.tables p i ∈ live'.pts)
    (htables : ∀ t j, pte' t j → t ∈ live.pts → t ∈ live'.pts)
    (hframes : ∀ t j, pte' t j → frameOf (m.tables t j) ∈ live.frames →
      frameOf (m.tables t j) ∈ live'.frames) : Refs m' dir' pte' live' := by
  refine ⟨?_, ?_, ?_, ?_, ?_, ?_⟩
  · intro p i hd
    obtain ⟨hd', heq⟩ := hdir p i hd
    rw [heq]
    exact hpts p i hd (h.dir_mem p i hd')
  · intro p i hd
    obtain ⟨hd', heq⟩ := hdir p i hd
    rw [heq, hempty]
    exact h.dir_ne p i hd'
  · intro p i p' i' hd hd' heq
    obtain ⟨hd₁, heq₁⟩ := hdir p i hd
    obtain ⟨hd₂, heq₂⟩ := hdir p' i' hd'
    rw [heq₁, heq₂] at heq
    exact h.dir_inj p i p' i' hd₁ hd₂ heq
  · intro t j hp
    exact htables t j hp (h.pte_table t j (hpte t j hp).1)
  · intro t j hp
    obtain ⟨hp', heq⟩ := hpte t j hp
    rw [heq]
    exact hframes t j hp (h.pte_mem t j hp')
  · intro t j t' j' hp hp' heq
    obtain ⟨hp₁, heq₁⟩ := hpte t j hp
    obtain ⟨hp₂, heq₂⟩ := hpte t' j' hp'
    rw [heq₁, heq₂] at heq
    exact h.pte_inj t j t' j' hp₁ hp₂ heq

theorem Refs.mono (h : Refs m dir pte live) (hdir : ∀ p i, dir' p i → dir p i)
    (hpte : ∀ t j, pte' t j → pte t j) : Refs m dir' pte' live :=
  h.congr (fun p i hd => ⟨hdir p i hd, rfl⟩) (fun t j hp => ⟨hpte t j hp, rfl⟩) rfl
    (fun _ _ _ h => h) (fun _ _ _ h => h) fun _ _ _ h => h

/-- One more entry of a directory, with a new page table. -/
theorem Refs.insert_dir (h : Refs m dir pte live) (p₀ i₀ : Nat)
    (hnew : m.tables p₀ i₀ ∉ live.pts) (hne : m.tables p₀ i₀ ≠ m.globalEmptyPt) :
    Refs m (fun p i => dir p i ∨ p = p₀ ∧ i = i₀) pte
      { live with pts := insert (m.tables p₀ i₀) live.pts } := by
  refine ⟨?_, ?_, ?_, ?_, h.pte_mem, h.pte_inj⟩
  · rintro p i (hd | ⟨rfl, rfl⟩)
    · exact Finset.mem_insert_of_mem (h.dir_mem p i hd)
    · exact Finset.mem_insert_self _ _
  · rintro p i (hd | ⟨rfl, rfl⟩)
    · exact h.dir_ne p i hd
    · exact hne
  · rintro p i p' i' (hd | ⟨rfl, rfl⟩) (hd' | ⟨rfl, rfl⟩) heq
    · exact h.dir_inj p i p' i' hd hd' heq
    · exact absurd (heq ▸ h.dir_mem p i hd) hnew
    · exact absurd (heq ▸ h.dir_mem p' i' hd') hnew
    · exact ⟨rfl, rfl⟩
  · intro t j hp
    exact Finset.mem_insert_of_mem (h.pte_table t j hp)

/-- One more entry of a page table, with a new frame. -/
theorem Refs.insert_pte (h : Refs m dir pte live) (t₀ j₀ : Nat) (ht : t₀ ∈ live.pts)
    (hnew : frameOf (m.tables t₀ j₀) ∉ live.frames) :
    Refs m dir (fun t j => pte t j ∨ t = t₀ ∧ j = j₀)
      { live with frames := insert (frameOf (m.tables t₀ j₀)) live.frames } := by
  refine ⟨h.dir_mem, h.dir_ne, h.dir_inj, ?_, ?_, ?_⟩
  · rintro t j (hp | ⟨rfl, rfl⟩)
    · exact h.pte_table t j hp
    · exact ht
  · rintro t j (hp | ⟨rfl, rfl⟩)
    · exact Finset.mem_insert_of_mem (h.pte_mem t j hp)
    · exact Finset.mem_insert_self _ _
  · rintro t j t' j' (hp | ⟨rfl, rfl⟩) (hp' | ⟨rfl, rfl⟩) heq
    · exact h.pte_inj t j t' j' hp hp' heq
    · exact absurd (heq ▸ h.pte_mem t j hp) hnew
    · exact absurd (heq ▸ h.pte_mem t' j' hp') hnew
    · exact ⟨rfl, rfl⟩

end Refs

/-- The entries of the directories `pgds` that have a page table of their own. -/
def Memory.Dir (m : Memory) (pgds : Finset Nat) (p i : Nat) : Prop :=
  p ∈ pgds ∧ i < numEntry ∧ m.tables p i ≠ m.globalEmptyPt

/-- The valid entries of the page tables of the directories `pgds`. -/
def Memory.Pte (m : Memory) (pgds : Finset Nat) (t j : Nat) : Prop :=
  (∃ p i, m.Dir pgds p i ∧ m.tables p i = t) ∧ j < numEntry ∧ pteValid (m.tables t j)

/-- The memory serves the page directories `pgds`. -/
structure Serves (m : Memory) (live : Live) (nG nT nU : Nat) : Prop where
  pools : Pools m live nG nT nU
  refs : Refs m (m.Dir live.pgds) (m.Pte live.pgds) live
  empty_zero : ∀ j, m.tables m.globalEmptyPt j = 0

/-- The memory serves the page directories, for some state of the pools. -/
def Owns (m : Memory) (pgds : Finset Nat) : Prop :=
  ∃ live nG nT nU, Serves m live nG nT nU ∧ live.pgds = pgds

/-- The register `current_pgd` has no part in it. -/
theorem Owns.setCurrentPgd {m : Memory} {pgds : Finset Nat} {pgd : Nat} (h : Owns m pgds) :
    Owns { m with currentPgd := pgd } pgds := by
  obtain ⟨live, nG, nT, nU, ⟨hpools, hrefs, hzero⟩, hpgds⟩ := h
  refine ⟨live, nG, nT, nU, ⟨?_, ?_, hzero⟩, hpgds⟩
  · exact ⟨hpools.pgd, hpools.pt, hpools.user, hpools.pgd_start, hpools.pt_start,
      hpools.user_start, hpools.nG_le, hpools.nT_le, hpools.nU_le, hpools.empty_mem⟩
  · exact hrefs.congr (fun _ _ hd => ⟨hd, rfl⟩) (fun _ _ hp => ⟨hp, rfl⟩) rfl
      (fun _ _ _ h => h) (fun _ _ _ h => h) fun _ _ _ h => h

/-! ## Boot and new directories -/

theorem owns_init (tables : Nat → Nat → Nat) : Owns (Memory.init tables) ∅ := by
  have hpt : Owned (pageCtrlInit ptStart tableSize) 0 ∅ := owned_init (by decide)
  obtain ⟨_, hpt'⟩ := allocPage_owned hpt (regular_pt (n := 1) (by rw [tableSize]; omega))
  refine ⟨⟨∅, {(allocPage (pageCtrlInit ptStart tableSize)).1}, ∅⟩, 0, 1, 0, ⟨?_, ?_, ?_⟩, rfl⟩
  · refine ⟨exact_init _ (by decide), hpt', owned_init (by decide), ⟨rfl, rfl⟩, ⟨rfl, rfl⟩,
      ⟨rfl, rfl⟩, by omega, ?_, ?_, Finset.mem_singleton_self _⟩
    · rw [ptStart, tableSize, ksegStart]
      omega
    · rw [userStart]
      omega
  · refine ⟨?_, ?_, ?_, ?_, ?_, ?_⟩
    · rintro p i ⟨hp, _⟩
      cases hp
    · rintro p i ⟨hp, _⟩
      cases hp
    · rintro p i p' i' ⟨hp, _⟩
      cases hp
    · rintro t j ⟨⟨p, i, ⟨hp, _⟩, _⟩, _⟩
      cases hp
    · rintro t j ⟨⟨p, i, ⟨hp, _⟩, _⟩, _⟩
      cases hp
    · rintro t j t' j' ⟨⟨p, i, ⟨hp, _⟩, _⟩, _⟩
      cases hp
  · intro j
    simp [Memory.init]

/-- The memory that `do_spawn` leaves: a page directory without page tables. -/
def Memory.spawnPgd (m : Memory) : Memory :=
  { m with pageCtrlPgd := (allocPage m.pageCtrlPgd).2 }.initPgd (allocPage m.pageCtrlPgd).1

theorem Owns.newPgd {m : Memory} {pgds : Finset Nat} (h : Owns m pgds) (hcard : pgds.card ≤ 30) :
    (allocPage m.pageCtrlPgd).1 ∉ pgds ∧
      Owns m.spawnPgd (insert (allocPage m.pageCtrlPgd).1 pgds) := by
  obtain ⟨live, nG, nT, nU, hserves, rfl⟩ := h
  obtain ⟨hpools, hrefs, hzero⟩ := hserves
  have hG := hpools.nG_le
  have hreg : Regular m.pageCtrlPgd.startAddr m.pageCtrlPgd.pageSize (nG + 1) := by
    rw [hpools.pgd_start.1, hpools.pgd_start.2]
    exact regular_pgd (by omega)
  obtain ⟨hfresh, hexact⟩ := allocPage_exact hpools.pgd hreg
  set a := (allocPage m.pageCtrlPgd).1 with ha
  have hcarved : carvedAfterAlloc m.pageCtrlPgd nG ≤ 31 := by
    unfold carvedAfterAlloc
    split
    · rename_i hstack
      have hcount := hpools.pgd.count
      rw [hstack, List.length_nil] at hcount
      omega
    · exact hG
  have hpools' : Pools m.spawnPgd ⟨insert a live.pgds, live.pts, live.frames⟩
      (carvedAfterAlloc m.pageCtrlPgd nG) nT nU :=
    ⟨hexact, hpools.pt, hpools.user, by simpa [Memory.spawnPgd, Memory.initPgd] using
      hpools.pgd_start, hpools.pt_start, hpools.user_start, hcarved, hpools.nT_le, hpools.nU_le,
      hpools.empty_mem⟩
  have hapt : a ∉ live.pts := hpools'.disjoint (Finset.mem_insert_self _ _)
  have hself : ∀ i, m.spawnPgd.tables a i = m.globalEmptyPt := by
    intro i
    simp [Memory.spawnPgd, Memory.initPgd, ha]
  have hother : ∀ t, t ≠ a → m.spawnPgd.tables t = m.tables t := by
    intro t ht
    simp [Memory.spawnPgd, Memory.initPgd, ← ha, ht]
  have hempty : m.spawnPgd.globalEmptyPt = m.globalEmptyPt := rfl
  have hdir : ∀ p i, m.spawnPgd.Dir (insert a live.pgds) p i → p ≠ a ∧ m.Dir live.pgds p i := by
    rintro p i ⟨hp, hi, hne⟩
    have hpa : p ≠ a := by
      rintro rfl
      exact hne (hself i)
    rw [hother p hpa, hempty] at hne
    exact ⟨hpa, Finset.mem_of_mem_insert_of_ne hp hpa, hi, hne⟩
  have hpte : ∀ t j, m.spawnPgd.Pte (insert a live.pgds) t j →
      m.Pte live.pgds t j ∧ m.spawnPgd.tables t j = m.tables t j := by
    rintro t j ⟨⟨p, i, hd, rfl⟩, hj, hvalid⟩
    obtain ⟨hpa, hd'⟩ := hdir p i hd
    have hentry : m.spawnPgd.tables p i = m.tables p i := by rw [hother p hpa]
    have hta : m.tables p i ≠ a := fun heq => hapt (heq ▸ hrefs.dir_mem p i hd')
    rw [hentry, hother _ hta] at hvalid ⊢
    exact ⟨⟨⟨p, i, hd', rfl⟩, hj, hvalid⟩, rfl⟩
  refine ⟨hfresh, ⟨insert a live.pgds, live.pts, live.frames⟩, _, nT, nU,
    ⟨hpools', ?_, fun j => ?_⟩, rfl⟩
  · refine hrefs.congr (fun p i hd => ?_) hpte hempty (fun _ _ _ h => h) (fun _ _ _ h => h)
      fun _ _ _ h => h
    obtain ⟨hpa, hd'⟩ := hdir p i hd
    exact ⟨hd', by rw [hother p hpa]⟩
  · have hne : m.globalEmptyPt ≠ a := fun heq => hapt (heq ▸ hpools.empty_mem)
    rw [hempty, hother _ hne]
    exact hzero j

/-! ## Page faults -/

section Fault

variable {m : Memory} {live : Live} {nG nT nU : Nat}

theorem carvedAfterAlloc_le (c : PageCtrl) (n : Nat) : carvedAfterAlloc c n ≤ n + 1 := by
  unfold carvedAfterAlloc
  split <;> omega

/-- The pool of page tables stays in range when its next page does. -/
theorem nT_le_of_physical {n : Nat} (hn : n * tableSize ≤ 2 ^ 37)
    (h : physical (carvedPage ptStart tableSize n) ≤ 2 ^ 36) :
    ptStart + n * tableSize ≤ ksegStart + 2 ^ 36 := by
  rw [physical, carvedPage, ksegStart, ptStart, tableSize] at h
  rw [tableSize] at hn
  rw [ptStart, tableSize, ksegStart]
  omega

theorem nU_le_of_next {n : Nat} (hn : userStart + n * pageSize < 2 ^ 64)
    (h : carvedPage userStart pageSize n ≤ 2 ^ 36) : userStart + n * pageSize ≤ 2 ^ 36 := by
  rwa [carvedPage, Nat.mod_eq_of_lt hn] at h

/-- A new page table. -/
theorem Pools.allocPt (h : Pools m live nG nT nU)
    (hr : physical (allocPage m.pageCtrlPt).2.nextPageAddr ≤ 2 ^ 36) :
    (allocPage m.pageCtrlPt).1 ∉ live.pts ∧
      ∃ nT', Pools { m with pageCtrlPt := (allocPage m.pageCtrlPt).2 }
        { live with pts := insert (allocPage m.pageCtrlPt).1 live.pts } nG nT' nU := by
  have hT := h.nT_le
  rw [ptStart, tableSize, ksegStart] at hT
  have hreg : Regular m.pageCtrlPt.startAddr m.pageCtrlPt.pageSize (nT + 1) := by
    rw [h.pt_start.1, h.pt_start.2]
    refine regular_pt ?_
    rw [tableSize]
    omega
  obtain ⟨hfresh, howned⟩ := allocPage_owned h.pt hreg
  have hnext := howned.next
  rw [allocPage_startAddr, allocPage_pageSize, h.pt_start.1, h.pt_start.2] at hnext
  have hle := carvedAfterAlloc_le m.pageCtrlPt nT
  have hT' : ptStart + carvedAfterAlloc m.pageCtrlPt nT * tableSize ≤ ksegStart + 2 ^ 36 := by
    refine nT_le_of_physical ?_ (hnext ▸ hr)
    rw [tableSize]
    omega
  exact ⟨hfresh, _, h.pgd, howned, h.user, h.pgd_start, by simpa using h.pt_start,
    h.user_start, h.nG_le, hT', h.nU_le, Finset.mem_insert_of_mem h.empty_mem⟩

/-- A new frame. -/
theorem Pools.allocUser (h : Pools m live nG nT nU)
    (hr : (allocPage m.pageCtrlUser).2.nextPageAddr ≤ 2 ^ 36) :
    (allocPage m.pageCtrlUser).1 ∉ live.frames ∧
      ∃ nU', Pools { m with pageCtrlUser := (allocPage m.pageCtrlUser).2 }
        { live with frames := insert (allocPage m.pageCtrlUser).1 live.frames } nG nT nU' := by
  have hU := h.nU_le
  rw [userStart, pageSize] at hU
  have hreg : Regular m.pageCtrlUser.startAddr m.pageCtrlUser.pageSize (nU + 1) := by
    rw [h.user_start.1, h.user_start.2]
    refine regular_user ?_
    rw [pageSize]
    omega
  obtain ⟨hfresh, howned⟩ := allocPage_owned h.user hreg
  have hnext := howned.next
  rw [allocPage_startAddr, allocPage_pageSize, h.user_start.1, h.user_start.2] at hnext
  have hle := carvedAfterAlloc_le m.pageCtrlUser nU
  have hU' : userStart + carvedAfterAlloc m.pageCtrlUser nU * pageSize ≤ 2 ^ 36 := by
    refine nU_le_of_next ?_ (hnext ▸ hr)
    rw [userStart, pageSize]
    omega
  exact ⟨hfresh, _, h.pgd, h.pt, howned, h.pgd_start, h.pt_start, by simpa using h.user_start,
    h.nG_le, h.nT_le, hU', h.empty_mem⟩

theorem Pools.congr {m' : Memory} (h : Pools m live nG nT nU)
    (hpgd : m'.pageCtrlPgd = m.pageCtrlPgd) (hpt : m'.pageCtrlPt = m.pageCtrlPt)
    (huser : m'.pageCtrlUser = m.pageCtrlUser) (hempty : m'.globalEmptyPt = m.globalEmptyPt) :
    Pools m' live nG nT nU := by
  refine ⟨?_, ?_, ?_, ?_, ?_, ?_, h.nG_le, h.nT_le, h.nU_le, ?_⟩
  · rw [hpgd]
    exact h.pgd
  · rw [hpt]
    exact h.pt
  · rw [huser]
    exact h.user
  · rw [hpgd]
    exact h.pgd_start
  · rw [hpt]
    exact h.pt_start
  · rw [huser]
    exact h.user_start
  · rw [hempty]
    exact h.empty_mem

/-- An entry of a directory gets a new page table without valid entries. -/
theorem Serves.addTable (h : Serves m live nG nT nU) (m' : Memory) {nT' c off a : Nat}
    (hpools' : Pools m' { live with pts := insert a live.pts } nG nT' nU)
    (hglobal : m'.globalEmptyPt = m.globalEmptyPt) (hc : c ∈ live.pgds) (hoff : off < numEntry)
    (hempty : m.tables c off = m.globalEmptyPt) (hfresh : a ∉ live.pts)
    (hentry : m'.tables c off = a) (hclear : ∀ j, m'.tables a j = 0)
    (hother : ∀ t, t ≠ c → t ≠ a → m'.tables t = m.tables t)
    (hrest : ∀ i, i ≠ off → m'.tables c i = m.tables c i) :
    Serves m' { live with pts := insert a live.pts } nG nT' nU ∧ m'.Dir live.pgds c off := by
  obtain ⟨hpools, hrefs, hzero⟩ := h
  have hcpts : c ∉ live.pts := hpools.disjoint hc
  have hae : a ≠ m.globalEmptyPt := fun heq => hfresh (heq ▸ hpools.empty_mem)
  have hpa : ∀ p ∈ live.pgds, p ≠ a := by
    rintro p hp rfl
    exact hpools'.disjoint hp (Finset.mem_insert_self _ _)
  have htables : ∀ t ∈ live.pts, m'.tables t = m.tables t := by
    intro t ht
    refine hother t ?_ ?_
    · rintro rfl
      exact hcpts ht
    · rintro rfl
      exact hfresh ht
  have hnew : m'.Dir live.pgds c off := ⟨hc, hoff, by rw [hentry, hglobal]; exact hae⟩
  have hold : ∀ p i, p ∈ live.pgds → ¬ (p = c ∧ i = off) → m'.tables p i = m.tables p i := by
    intro p i hp hne
    rcases eq_or_ne p c with rfl | hpc
    · exact hrest i fun hi => hne ⟨rfl, hi⟩
    · rw [hother p hpc (hpa p hp)]
  have hkept : Refs m' (m.Dir live.pgds) (m.Pte live.pgds) live := by
    refine hrefs.congr (fun p i hd => ⟨hd, hold p i hd.1 ?_⟩) (fun t j hp => ⟨hp, ?_⟩) hglobal
      (fun _ _ _ h => h) (fun _ _ _ h => h) fun _ _ _ h => h
    · rintro ⟨rfl, rfl⟩
      exact hd.2.2 hempty
    · rw [htables t (hrefs.pte_table t j hp)]
  have hadded := hkept.insert_dir c off (by rw [hentry]; exact hfresh)
    (by rw [hentry, hglobal]; exact hae)
  rw [hentry] at hadded
  have hdir : ∀ p i, m'.Dir live.pgds p i → m.Dir live.pgds p i ∨ p = c ∧ i = off := by
    rintro p i ⟨hp, hi, hne⟩
    by_cases hslot : p = c ∧ i = off
    · exact Or.inr hslot
    · rw [hold p i hp hslot, hglobal] at hne
      exact Or.inl ⟨hp, hi, hne⟩
  refine ⟨⟨hpools', hadded.mono hdir ?_, fun j => ?_⟩, hnew⟩
  · rintro t j ⟨⟨p, i, hd, rfl⟩, hj, hvalid⟩
    rcases hdir p i hd with hd' | ⟨rfl, rfl⟩
    · have hslot : ¬ (p = c ∧ i = off) := by
        rintro ⟨rfl, rfl⟩
        exact hd'.2.2 hempty
      rw [hold p i hd'.1 hslot] at hvalid ⊢
      rw [htables _ (hrefs.dir_mem p i hd')] at hvalid
      exact ⟨⟨p, i, hd', rfl⟩, hj, hvalid⟩
    · rw [hentry, hclear] at hvalid
      exact absurd hvalid not_pteValid_zero
  · rw [hglobal, htables _ hpools.empty_mem]
    exact hzero j

/-- The entry of the directory has a page table of its own behind
`tableFor`. -/
theorem Serves.tableFor (h : Serves m live nG nT nU) (hpgd : m.currentPgd ∈ live.pgds)
    {off : Nat} (hoff : off < numEntry)
    (hr : physical (m.tableFor off).2.pageCtrlPt.nextPageAddr ≤ 2 ^ 36) :
    ∃ live' nT', Serves (m.tableFor off).2 live' nG nT' nU ∧ live'.pgds = live.pgds ∧
      (m.tableFor off).2.Dir live.pgds m.currentPgd off ∧
      (m.tableFor off).2.tables m.currentPgd off = (m.tableFor off).1 := by
  unfold Memory.tableFor at hr ⊢
  simp only at hr ⊢
  split at hr
  · rename_i hempty
    rw [if_pos hempty]
    simp only
    obtain ⟨hfresh, nT', hpools'⟩ := h.pools.allocPt hr
    generalize (allocPage m.pageCtrlPt).2 = ctrl at hpools' ⊢
    generalize (allocPage m.pageCtrlPt).1 = a at hfresh hpools' ⊢
    have hca : m.currentPgd ≠ a := fun heq =>
      hpools'.disjoint hpgd (heq ▸ Finset.mem_insert_self a live.pts)
    have hentry : Function.update (Function.update m.tables m.currentPgd
        (Function.update (m.tables m.currentPgd) off a)) a (fun _ => 0) m.currentPgd off = a := by
      simp [hca]
    obtain ⟨hserves, hdir⟩ := h.addTable
      { ({ m with pageCtrlPt := ctrl } : Memory).setEntry m.currentPgd off a with
        tables := Function.update
          (({ m with pageCtrlPt := ctrl } : Memory).setEntry m.currentPgd off a).tables a
            fun _ => 0 }
      (hpools'.congr rfl rfl rfl rfl) rfl hpgd hoff hempty hfresh hentry
      (fun j => by simp) (fun t htc hta => by simp [Memory.setEntry, htc, hta])
      (fun i hi => by simp [Memory.setEntry, hca, hi])
    exact ⟨_, nT', hserves, rfl, hdir, hentry⟩
  · rename_i hne
    rw [if_neg hne]
    exact ⟨live, nT, h, rfl, ⟨hpgd, hoff, hne⟩, rfl⟩

/-- An entry of a page table gets a new frame. -/
theorem Serves.addFrame (h : Serves m live nG nT nU) {m' : Memory} {nU' t j f : Nat}
    (hpools' : Pools m' { live with frames := insert f live.frames } nG nT nU')
    (hglobal : m'.globalEmptyPt = m.globalEmptyPt)
    (ht : ∃ p i, m.Dir live.pgds p i ∧ m.tables p i = t) (hfresh : f ∉ live.frames)
    (hentry : frameOf (m'.tables t j) = f)
    (hother : ∀ t', t' ≠ t → m'.tables t' = m.tables t')
    (hrest : ∀ j', j' ≠ j → m'.tables t j' = m.tables t j')
    (hinvalid : ¬ pteValid (m.tables t j)) :
    Serves m' { live with frames := insert f live.frames } nG nT nU' := by
  obtain ⟨hpools, hrefs, hzero⟩ := h
  obtain ⟨p₀, i₀, hd₀, rfl⟩ := ht
  have htpts := hrefs.dir_mem p₀ i₀ hd₀
  have hpgd : ∀ p ∈ live.pgds, m'.tables p = m.tables p := by
    intro p hp
    refine hother p fun heq => ?_
    exact hpools.disjoint hp (heq ▸ htpts)
  have hold : ∀ t' j', ¬ (t' = m.tables p₀ i₀ ∧ j' = j) → m'.tables t' j' = m.tables t' j' := by
    intro t' j' hne
    by_cases ht' : t' = m.tables p₀ i₀
    · subst ht'
      exact hrest j' fun hj => hne ⟨rfl, hj⟩
    · rw [hother t' ht']
  have hdir : ∀ p i, m'.Dir live.pgds p i → m.Dir live.pgds p i := by
    rintro p i ⟨hp, hi, hne⟩
    rw [hpgd p hp, hglobal] at hne
    exact ⟨hp, hi, hne⟩
  have hkept : Refs m' (m.Dir live.pgds) (m.Pte live.pgds) live := by
    refine hrefs.congr (fun p i hd => ⟨hd, by rw [hpgd p hd.1]⟩)
      (fun t' j' hp => ⟨hp, hold t' j' ?_⟩) hglobal (fun _ _ _ h => h) (fun _ _ _ h => h)
      fun _ _ _ h => h
    rintro ⟨rfl, rfl⟩
    exact hinvalid hp.2.2
  have hadded := hkept.insert_pte (m.tables p₀ i₀) j htpts
    (by rw [hentry]; exact hfresh)
  rw [hentry] at hadded
  refine ⟨hpools', hadded.mono hdir ?_, fun j' => ?_⟩
  · rintro t' j' ⟨⟨p, i, hd, rfl⟩, hj, hvalid⟩
    have hd' := hdir p i hd
    rw [hpgd p hd'.1] at hvalid ⊢
    by_cases hslot : m.tables p i = m.tables p₀ i₀ ∧ j' = j
    · exact Or.inr hslot
    · rw [hold _ j' hslot] at hvalid
      exact Or.inl ⟨⟨p, i, hd', rfl⟩, hj, hvalid⟩
  · have hne : m.globalEmptyPt ≠ m.tables p₀ i₀ := (hrefs.dir_ne p₀ i₀ hd₀).symm
    rw [hglobal, hother _ hne]
    exact hzero j'

/-- The entry of the page table is valid behind `fillEntry`. -/
theorem Serves.fillEntry (h : Serves m live nG nT nU) {t j : Nat}
    (ht : ∃ p i, m.Dir live.pgds p i ∧ m.tables p i = t)
    (hr : (m.fillEntry t j).pageCtrlUser.nextPageAddr ≤ 2 ^ 36) :
    ∃ live' nU', Serves (m.fillEntry t j) live' nG nT nU' ∧ live'.pgds = live.pgds := by
  unfold Memory.fillEntry at hr ⊢
  split at hr
  · rename_i hinvalid
    rw [if_pos hinvalid]
    simp only [Memory.doPageFault] at hr ⊢
    obtain ⟨hfresh, nU', hpools'⟩ := h.pools.allocUser hr
    obtain ⟨haligned, hlt⟩ := hpools'.frame (Finset.mem_insert_self _ _)
    generalize (allocPage m.pageCtrlUser).2 = ctrl at hpools' ⊢
    generalize (allocPage m.pageCtrlUser).1 = f at hfresh hpools' haligned hlt ⊢
    refine ⟨_, nU', h.addFrame (hpools'.congr rfl rfl rfl rfl) rfl ht hfresh (j := j) ?_
      (fun t' ht' => by simp [Memory.setEntry, ht']) (fun j' hj' => by
        simp [Memory.setEntry, hj']) (not_not.mpr hinvalid), rfl⟩
    simp only [Memory.setEntry, Function.update_self]
    exact frameOf_entryLo haligned hlt
  · rename_i hvalid
    rw [if_neg hvalid]
    exact ⟨live, nU, h, rfl⟩

/-- Filling an entry leaves the directories alone. -/
theorem Serves.fillEntry_dir (h : Serves m live nG nT nU) {p i t j : Nat}
    (hd : m.Dir live.pgds p i) (ht : m.tables p i = t) :
    (m.fillEntry t j).Dir live.pgds p i ∧ (m.fillEntry t j).tables p i = t := by
  have htpts := h.refs.dir_mem p i hd
  have hne : p ≠ t := by
    rintro rfl
    exact h.pools.disjoint hd.1 (ht ▸ htpts)
  have hentry : (m.fillEntry t j).tables p = m.tables p := by
    unfold Memory.fillEntry
    split
    · simp [Memory.doPageFault, Memory.setEntry, hne]
    · rfl
  have hglobal : (m.fillEntry t j).globalEmptyPt = m.globalEmptyPt := by
    unfold Memory.fillEntry
    split <;> rfl
  exact ⟨⟨hd.1, hd.2.1, by rw [hentry, hglobal]; exact hd.2.2⟩, by rw [hentry]; exact ht⟩

theorem fillEntry_pageCtrlPt (m : Memory) (t j : Nat) :
    (m.fillEntry t j).pageCtrlPt = m.pageCtrlPt := by
  unfold Memory.fillEntry
  split <;> rfl

/-- A frame pool that is in range after two allocations was in range after the
first. -/
theorem fillEntry_next_le {n t j : Nat} (hU : m.pageCtrlUser.nextPageAddr ≤ n)
    (hn : n < 2 ^ 63) (hsize : m.pageCtrlUser.pageSize = pageSize) :
    m.pageCtrlUser.nextPageAddr ≤ (m.fillEntry t j).pageCtrlUser.nextPageAddr ∧
      (m.fillEntry t j).pageCtrlUser.nextPageAddr ≤ n + pageSize ∧
      (m.fillEntry t j).pageCtrlUser.pageSize = pageSize := by
  unfold Memory.fillEntry
  split
  · have hpage : (allocPage m.pageCtrlUser).2.pageSize = pageSize := by simpa using hsize
    have hnext : m.pageCtrlUser.nextPageAddr ≤ (allocPage m.pageCtrlUser).2.nextPageAddr ∧
        (allocPage m.pageCtrlUser).2.nextPageAddr ≤ n + pageSize := by
      unfold allocPage
      rw [pageSize] at hsize
      split
      · simp only
        omega
      · simp only [hsize, pageSize]
        omega
    exact ⟨hnext.1, hnext.2, hpage⟩
  · exact ⟨le_rfl, by omega, hsize⟩

theorem and_mask_lt (x : Nat) : x &&& 0x3ff < numEntry := by
  rw [show 0x3ff = 2 ^ 10 - 1 from rfl, Nat.and_two_pow_sub_one_eq_mod, numEntry]
  omega

theorem tableFor_pageCtrlUser (m : Memory) (off : Nat) :
    (m.tableFor off).2.pageCtrlUser = m.pageCtrlUser := by
  unfold Memory.tableFor
  simp only
  split <;> rfl

/-- A page fault of a process that the memory serves. -/
theorem Owns.doTlbRefill {pgds : Finset Nat} (h : Owns m pgds) (hpgd : m.currentPgd ∈ pgds)
    {addr : Nat} (hr : (m.doTlbRefill addr).InRange) : Owns (m.doTlbRefill addr) pgds := by
  obtain ⟨live, nG, nT, nU, hserves, rfl⟩ := h
  obtain ⟨hruser, hrpt⟩ := hr
  simp only [Memory.doTlbRefill] at hruser hrpt ⊢
  set off := (addr >>> 22) &&& 0x3ff with hoff
  set ptOff := (addr >>> 12) &&& 0x3fe with hptOff
  rw [fillEntry_pageCtrlPt, fillEntry_pageCtrlPt] at hrpt
  obtain ⟨live₁, nT₁, h₁, hpgds, hdir, hentry⟩ :=
    hserves.tableFor hpgd (and_mask_lt (addr >>> 22)) hrpt
  rw [← hoff] at h₁ hdir hentry
  generalize (m.tableFor off).2 = m₁ at *
  generalize (m.tableFor off).1 = t at *
  rw [← hpgds] at hdir ⊢
  obtain ⟨_, hnext₂, hsize₂⟩ := fillEntry_next_le (t := t) (j := ptOff) h₁.pools.user_next_le
    (by omega) h₁.pools.user_start.2
  obtain ⟨hnext₃, _⟩ := fillEntry_next_le (t := t) (j := ptOff + 1) hnext₂
    (by rw [pageSize]; omega) hsize₂
  obtain ⟨live₂, nU₂, h₂, hpgds₂⟩ :=
    h₁.fillEntry ⟨_, _, hdir, hentry⟩ (hnext₃.trans hruser)
  obtain ⟨hdir₂, hentry₂⟩ := h₁.fillEntry_dir (j := ptOff) hdir hentry
  rw [← hpgds₂] at hdir₂ ⊢
  obtain ⟨live₃, nU₃, h₃, hpgds₃⟩ := h₂.fillEntry ⟨_, _, hdir₂, hentry₂⟩ hruser
  exact ⟨live₃, nG, nT₁, nU₃, h₃, hpgds₃⟩

end Fault

/-! ## The end of a process -/

section Free

variable {m : Memory} {live : Live} {nG nT nU : Nat} {dir pte : Nat → Nat → Prop}

/-- The pools and a part of the entries of `m`, after pages have been given
back that leave the content of the tables as it was in `m₀`. -/
structure Partly (m₀ m : Memory) (dir pte : Nat → Nat → Prop) (live : Live) (nG nT nU : Nat) :
    Prop where
  pools : Pools m live nG nT nU
  refs : Refs m dir pte live
  tables : m.tables = m₀.tables
  global : m.globalEmptyPt = m₀.globalEmptyPt

theorem Partly.mono {m₀ : Memory} {dir' pte' : Nat → Nat → Prop}
    (h : Partly m₀ m dir pte live nG nT nU) (hdir : ∀ p i, dir' p i → dir p i)
    (hpte : ∀ t j, pte' t j → pte t j) : Partly m₀ m dir' pte' live nG nT nU :=
  ⟨h.pools, h.refs.mono hdir hpte, h.tables, h.global⟩

/-- One step of the inner loop of `free_proc`. -/
def Memory.freeFrame (m : Memory) (pt j : Nat) : Memory :=
  if m.tables pt j &&& 0x2 ≠ 0 then
    { m with pageCtrlUser := freePage m.pageCtrlUser (frameOf (m.tables pt j)) }
  else
    m

/-- The first `k` steps of the inner loop. -/
def Memory.freeSome (m : Memory) (pt k : Nat) : Memory :=
  (List.range k).foldl (fun m j => m.freeFrame pt j) m

theorem freeSome_succ (m : Memory) (pt k : Nat) :
    m.freeSome pt (k + 1) = (m.freeSome pt k).freeFrame pt k := by
  simp only [Memory.freeSome, List.range_succ, List.foldl_append, List.foldl_cons,
    List.foldl_nil]

theorem freeFrames_eq (m : Memory) (pt : Nat) : m.freeFrames pt = m.freeSome pt numEntry := rfl

/-- A valid entry that is counted gives its frame back and is not counted any
more. -/
theorem Partly.freeFrame {m₀ : Memory} (h : Partly m₀ m dir pte live nG nT nU) {t j : Nat}
    (hfull : pteValid (m₀.tables t j) → pte t j) :
    ∃ frames', Partly m₀ (m.freeFrame t j) dir (fun t' j' => pte t' j' ∧ ¬ (t' = t ∧ j' = j))
      { live with frames := frames' } nG nT nU := by
  obtain ⟨hpools, hrefs, htables, hglobal⟩ := h
  unfold Memory.freeFrame
  split
  · rename_i hvalid
    have hpte : pte t j := hfull (by rw [← htables]; exact hvalid)
    have hf := hrefs.pte_mem t j hpte
    refine ⟨live.frames.erase (frameOf (m.tables t j)), ?_, ?_, htables, hglobal⟩
    · exact ⟨hpools.pgd, hpools.pt, freePage_owned hpools.user hf, hpools.pgd_start,
        hpools.pt_start, by simpa using hpools.user_start, hpools.nG_le, hpools.nT_le,
        hpools.nU_le, hpools.empty_mem⟩
    · refine hrefs.congr (fun p i hd => ⟨hd, rfl⟩) (fun t' j' hp => ⟨hp.1, rfl⟩) rfl
        (fun _ _ _ h => h) (fun _ _ _ h => h) fun t' j' hp hmem => ?_
      exact Finset.mem_erase_of_ne_of_mem
        (fun heq => hp.2 (hrefs.pte_inj t' j' t j hp.1 hpte heq)) hmem
  · exact ⟨live.frames, Partly.mono ⟨hpools, hrefs, htables, hglobal⟩ (fun _ _ h => h)
      fun _ _ h => h.1⟩

/-- The inner loop gives back the frames of a page table. -/
theorem Partly.freeFrames {m₀ : Memory} (h : Partly m₀ m dir pte live nG nT nU) {t : Nat}
    (hfull : ∀ j < numEntry, pteValid (m₀.tables t j) → pte t j) :
    ∃ frames', Partly m₀ (m.freeFrames t) dir
      (fun t' j => pte t' j ∧ ¬ (t' = t ∧ j < numEntry)) { live with frames := frames' }
      nG nT nU := by
  have hloop : ∀ k ≤ numEntry, ∃ frames',
      Partly m₀ (m.freeSome t k) dir (fun t' j => pte t' j ∧ ¬ (t' = t ∧ j < k))
        { live with frames := frames' } nG nT nU := by
    intro k hk
    induction k with
    | zero =>
      exact ⟨live.frames, h.mono (fun _ _ h => h) fun _ _ h => h.1⟩
    | succ k ih =>
      obtain ⟨frames₁, h₁⟩ := ih (by omega)
      rw [freeSome_succ]
      obtain ⟨frames₂, h₂⟩ := h₁.freeFrame (t := t) (j := k) fun hvalid =>
        ⟨hfull k (by omega) hvalid, by omega⟩
      refine ⟨frames₂, h₂.mono (fun _ _ h => h) ?_⟩
      rintro t' j ⟨hp, hne⟩
      exact ⟨⟨hp, by omega⟩, by omega⟩
  rw [freeFrames_eq]
  exact hloop numEntry le_rfl

theorem freeTable_eq (m : Memory) (pgd i : Nat) :
    m.freeTable pgd i = if m.tables pgd i ≠ m.globalEmptyPt then
      { m.freeFrames (m.tables pgd i) with
        pageCtrlPt := freePage (m.freeFrames (m.tables pgd i)).pageCtrlPt (m.tables pgd i) }
    else m := rfl

/-- A page table whose frames are given back is given back. -/
theorem Partly.dropTable {m₀ : Memory} (h : Partly m₀ m dir pte live nG nT nU) {pgd i : Nat}
    (hdir : dir pgd i) (hpte : ∀ t j, pte t j → t ≠ m₀.tables pgd i) :
    Partly m₀ { m with pageCtrlPt := freePage m.pageCtrlPt (m₀.tables pgd i) }
      (fun p i' => dir p i' ∧ ¬ (p = pgd ∧ i' = i)) pte
      { live with pts := live.pts.erase (m₀.tables pgd i) } nG nT nU := by
  have hmem := h.refs.dir_mem pgd i hdir
  have hne := h.refs.dir_ne pgd i hdir
  rw [← h.tables] at hpte ⊢
  refine ⟨?_, ?_, h.tables, h.global⟩
  · exact ⟨h.pools.pgd, freePage_owned h.pools.pt hmem, h.pools.user, h.pools.pgd_start,
      by simpa using h.pools.pt_start, h.pools.user_start, h.pools.nG_le, h.pools.nT_le,
      h.pools.nU_le, Finset.mem_erase_of_ne_of_mem hne.symm h.pools.empty_mem⟩
  · refine h.refs.congr (fun p i' hd => ⟨hd.1, rfl⟩) (fun t j hp => ⟨hp, rfl⟩) rfl ?_ ?_
      fun _ _ _ h => h
    · intro p i' hd hin
      exact Finset.mem_erase_of_ne_of_mem
        (fun heq => hd.2 (h.refs.dir_inj p i' pgd i hd.1 hdir heq)) hin
    · intro t j hp hin
      exact Finset.mem_erase_of_ne_of_mem (hpte t j hp) hin

/-- The outer loop gives back one page table with its frames. -/
theorem Partly.freeTable {m₀ : Memory} (h : Partly m₀ m dir pte live nG nT nU) (pgd i : Nat)
    (hbound : ∀ t j, pte t j → j < numEntry)
    (hdir : m₀.tables pgd i ≠ m₀.globalEmptyPt → dir pgd i)
    (hpte : m₀.tables pgd i ≠ m₀.globalEmptyPt →
      ∀ j < numEntry, pteValid (m₀.tables (m₀.tables pgd i) j) → pte (m₀.tables pgd i) j) :
    ∃ live', live'.pgds = live.pgds ∧ Partly m₀ (m.freeTable pgd i)
      (fun p i' => dir p i' ∧ ¬ (p = pgd ∧ i' = i))
      (fun t j => pte t j ∧ t ≠ m₀.tables pgd i) live' nG nT nU := by
  rw [freeTable_eq, h.tables, h.global]
  split
  · rename_i hne
    obtain ⟨frames', h₁⟩ := h.freeFrames (hpte hne)
    have h₂ := h₁.dropTable (hdir hne) (fun t j hp heq => hp.2 ⟨heq, hbound t j hp.1⟩)
    refine ⟨⟨live.pgds, live.pts.erase (m₀.tables pgd i), frames'⟩, rfl,
      h₂.mono (fun _ _ h => h) ?_⟩
    rintro t j ⟨hp, hne⟩
    exact ⟨hp, fun heq => hne heq.1⟩
  · exact ⟨live, rfl, h.mono (fun _ _ h => h.1) fun _ _ h => h.1⟩

/-- A page directory whose page tables are given back is given back. -/
theorem Partly.dropPgd {m₀ : Memory} {pgds : Finset Nat} {pgd : Nat}
    (h : Partly m₀ m (fun p i => m₀.Dir pgds p i ∧ ¬ (p = pgd ∧ i < numEntry))
      (fun t j => m₀.Pte pgds t j ∧ ∀ i < numEntry, t ≠ m₀.tables pgd i) live nG nT nU)
    (hpgds : live.pgds = pgds) (hpgd : pgd ∈ pgds)
    (hne : ∀ p i, m₀.Dir pgds p i → p ≠ pgd → ∀ i' < numEntry,
      m₀.tables p i ≠ m₀.tables pgd i')
    (hzero : ∀ j, m₀.tables m₀.globalEmptyPt j = 0) :
    Serves { m with pageCtrlPgd := freePage m.pageCtrlPgd pgd }
      { live with pgds := pgds.erase pgd } nG nT nU := by
  obtain ⟨hpools, hrefs, htables, hglobal⟩ := h
  have hexact : Exact (freePage m.pageCtrlPgd pgd) nG (pgds.erase pgd) := by
    rw [← hpgds] at hpgd ⊢
    refine freePage_exact hpools.pgd ?_ hpgd
    have := hpools.nG_le
    rw [maxFreePage]
    omega
  have hdir : ∀ p i, ({ m with pageCtrlPgd := freePage m.pageCtrlPgd pgd } : Memory).Dir
      (pgds.erase pgd) p i → m₀.Dir pgds p i ∧ p ≠ pgd := by
    rintro p i ⟨hp, hi, hentry⟩
    rw [htables, hglobal] at hentry
    obtain ⟨hpne, hp⟩ := Finset.mem_erase.mp hp
    exact ⟨⟨hp, hi, hentry⟩, hpne⟩
  refine ⟨?_, ?_, fun j => ?_⟩
  · exact ⟨hexact, hpools.pt, hpools.user, by simpa using hpools.pgd_start, hpools.pt_start,
      hpools.user_start, hpools.nG_le, hpools.nT_le, hpools.nU_le, hpools.empty_mem⟩
  · refine hrefs.congr (fun p i hd => ⟨⟨(hdir p i hd).1, fun heq => (hdir p i hd).2 heq.1⟩, rfl⟩)
      (fun t j hp => ⟨?_, rfl⟩) rfl (fun _ _ _ h => h) (fun _ _ _ h => h) fun _ _ _ h => h
    obtain ⟨⟨p, i, hd, ht⟩, hj, hvalid⟩ := hp
    obtain ⟨hd', hpne⟩ := hdir p i hd
    simp only [htables] at ht hvalid
    refine ⟨⟨⟨p, i, hd', ht⟩, hj, hvalid⟩, fun i' hi' heq => ?_⟩
    exact hne p i hd' hpne i' hi' (ht.trans heq)
  · simp only [htables, hglobal]
    exact hzero j

/-- The first `k` steps of the outer loop. -/
def Memory.freeTables (m : Memory) (pgd k : Nat) : Memory :=
  (List.range k).foldl (fun m i => m.freeTable pgd i) m

theorem freeTables_succ (m : Memory) (pgd k : Nat) :
    m.freeTables pgd (k + 1) = (m.freeTables pgd k).freeTable pgd k := by
  simp only [Memory.freeTables, List.range_succ, List.foldl_append, List.foldl_cons,
    List.foldl_nil]

theorem freePgd_eq (m : Memory) (pgd : Nat) :
    m.freePgd pgd = { m.freeTables pgd numEntry with
      pageCtrlPgd := freePage (m.freeTables pgd numEntry).pageCtrlPgd pgd } := rfl

/-- `free_proc` gives back everything that a page directory refers to, and the
directory. -/
theorem Owns.freePgd {pgds : Finset Nat} (h : Owns m pgds) {pgd : Nat} (hpgd : pgd ∈ pgds) :
    Owns (m.freePgd pgd) (pgds.erase pgd) := by
  obtain ⟨live, nG, nT, nU, ⟨hpools, hrefs, hzero⟩, rfl⟩ := h
  have hloop : ∀ k ≤ numEntry, ∃ live', live'.pgds = live.pgds ∧
      Partly m (m.freeTables pgd k)
        (fun p i => m.Dir live.pgds p i ∧ ¬ (p = pgd ∧ i < k))
        (fun t j => m.Pte live.pgds t j ∧ ∀ i < k, t ≠ m.tables pgd i) live' nG nT nU := by
    intro k hk
    induction k with
    | zero =>
      exact ⟨live, rfl, Partly.mono ⟨hpools, hrefs, rfl, rfl⟩ (fun _ _ h => h.1)
        fun _ _ h => h.1⟩
    | succ k ih =>
      obtain ⟨live₁, hpgds₁, h₁⟩ := ih (by omega)
      rw [freeTables_succ]
      have hdir : m.tables pgd k ≠ m.globalEmptyPt → m.Dir live.pgds pgd k := fun hne =>
        ⟨hpgd, by omega, hne⟩
      have hpte : m.tables pgd k ≠ m.globalEmptyPt →
          ∀ j < numEntry, pteValid (m.tables (m.tables pgd k) j) →
            m.Pte live.pgds (m.tables pgd k) j ∧ ∀ i < k, m.tables pgd k ≠ m.tables pgd i := by
        intro hne j hj hvalid
        refine ⟨⟨⟨pgd, k, hdir hne, rfl⟩, hj, hvalid⟩, fun i hi heq => ?_⟩
        have hd : m.Dir live.pgds pgd i := ⟨hpgd, by omega, by rw [← heq]; exact hne⟩
        have := (hrefs.dir_inj pgd k pgd i (hdir hne) hd heq).2
        omega
      obtain ⟨live₂, hpgds₂, h₂⟩ := h₁.freeTable pgd k
        (fun t j hp => hp.1.2.1) (fun hne => ⟨hdir hne, by omega⟩) hpte
      refine ⟨live₂, hpgds₂.trans hpgds₁, h₂.mono ?_ ?_⟩
      · rintro p i ⟨hd, hne⟩
        exact ⟨⟨hd, by omega⟩, by omega⟩
      · rintro t j ⟨hp, hne⟩
        exact ⟨⟨hp, fun i hi => hne i (by omega)⟩, hne k (by omega)⟩
  obtain ⟨live', hpgds, h'⟩ := hloop numEntry le_rfl
  rw [freePgd_eq]
  refine ⟨_, nG, nT, nU, h'.dropPgd hpgds hpgd ?_ hzero, rfl⟩
  intro p i hd hpne i' hi' heq
  refine hpne (hrefs.dir_inj p i pgd i' hd ⟨hpgd, hi', ?_⟩ heq).1
  rw [← heq]
  exact hd.2.2

end Free

/-! ## The current page directory -/

theorem fillEntry_currentPgd (m : Memory) (t j : Nat) :
    (m.fillEntry t j).currentPgd = m.currentPgd := by
  unfold Memory.fillEntry
  split <;> rfl

theorem doTlbRefill_currentPgd (m : Memory) (addr : Nat) :
    (m.doTlbRefill addr).currentPgd = m.currentPgd := by
  simp only [Memory.doTlbRefill]
  rw [fillEntry_currentPgd, fillEntry_currentPgd]
  unfold Memory.tableFor
  simp only
  split <;> rfl

theorem freeSome_currentPgd (m : Memory) (t k : Nat) :
    (m.freeSome t k).currentPgd = m.currentPgd := by
  induction k with
  | zero => rfl
  | succ k ih =>
    rw [freeSome_succ, ← ih]
    unfold Memory.freeFrame
    split <;> rfl

theorem freeFrames_currentPgd (m : Memory) (t : Nat) :
    (m.freeFrames t).currentPgd = m.currentPgd := by
  rw [freeFrames_eq, freeSome_currentPgd]

theorem freeTable_currentPgd (m : Memory) (pgd i : Nat) :
    (m.freeTable pgd i).currentPgd = m.currentPgd := by
  have hset : ∀ (m : Memory) (c : PageCtrl),
      ({ m with pageCtrlPt := c } : Memory).currentPgd = m.currentPgd := fun _ _ => rfl
  rw [freeTable_eq, apply_ite Memory.currentPgd, hset, freeFrames_currentPgd, ite_self]

theorem freeTables_currentPgd (m : Memory) (pgd k : Nat) :
    (m.freeTables pgd k).currentPgd = m.currentPgd := by
  induction k with
  | zero => rfl
  | succ k ih => rw [freeTables_succ, freeTable_currentPgd, ih]

theorem freePgd_currentPgd (m : Memory) (pgd : Nat) :
    (m.freePgd pgd).currentPgd = m.currentPgd := by
  have hset : ∀ (m : Memory) (c : PageCtrl),
      ({ m with pageCtrlPgd := c } : Memory).currentPgd = m.currentPgd := fun _ _ => rfl
  rw [freePgd_eq, hset, freeTables_currentPgd]

end MipsOs.Mm
