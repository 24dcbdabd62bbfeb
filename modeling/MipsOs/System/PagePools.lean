import MipsOs.Fs.Mount
import MipsOs.Mm.TablePools
import MipsOs.Sched.AddressSpaces
import MipsOs.Sched.BootTask

/-!
# The three pools of the kernel

The pools of page directories, of page tables and of kernel pages start one
behind the other, and none of them has an end.  `PoolSystem` runs the pointer
kernel beside the block cache, which takes its pages from the third pool.

The first pool carves at most 31 pages, and the third one at most 64.  The pool
of page tables is bounded by the condition `TableFits` only: two processes can
have more page tables than fit in front of the kernel pages.

`pools_apart` is the result: as long as every new page table fits, the pages that
are handed out lie apart.  `tables_reach_kernel_pages` is a run without the
condition.
-/

namespace MipsOs.System

open MipsOs.Lib MipsOs.Mm MipsOs.Sched MipsOs.Fs

/-- The kernel, the file system, and the page that `cat` reads into. -/
structure PoolSystem where
  kernel : Kernel PtrQueues
  fs : FileSystem
  catBuff : Option Nat

/-- `takeBuff` and `giveBuff` are the two ends of `cat`. -/
inductive PoolEvent where
  | kernel (e : Event)
  | fs (op : MountOp)
  | takeBuff
  | giveBuff

/-- Who has a page of the three pools. -/
inductive Holder where
  | directory (i : Task)
  | emptyTable
  | table (i : Task) (j : Nat)
  | zeroPage
  | files
  | superBlock
  | buffer (i : Fin diskBuffSize)
  | catBuff
  deriving DecidableEq

namespace PoolSystem

/-- One event. -/
def step (s : PoolSystem) : PoolEvent → Option PoolSystem
  | .kernel e => (kernelRun s.kernel e).map fun k => { s with kernel := k }
  | .fs op => (fileSystemStep s.fs op).map fun m => { s with fs := m }
  | .takeBuff =>
    if s.catBuff = none then
      let (page, ctrl) := allocPage s.fs.cache.pageCtrlKernel
      some { s with
        fs := { s.fs with cache := { s.fs.cache with pageCtrlKernel := ctrl } }
        catBuff := some page }
    else none
  | .giveBuff => s.catBuff.map fun page =>
    { s with
      fs :=
        { s.fs with
          cache :=
            { s.fs.cache with
              pageCtrlKernel := freePage s.fs.cache.pageCtrlKernel page } }
      catBuff := none }

/-- Nothing is mounted at boot.  The kernel pool has handed out `zero_page` and
the page of the open files. -/
def boot (barrier : BarrierId → Barrier) (tables : Nat → Nat → Nat) (table : PartitionTable)
    (card : Card) (mem : Nat → Block) (part : Fin 4) : PoolSystem where
  kernel := bootKernel barrier tables
  fs := { cache := bootCache table card mem part, fsMounted := false, fsSuperBlock := 0 }
  catBuff := none

/-- Boot over cleared memory and an empty card with four equal partitions. -/
def blank : PoolSystem :=
  boot (fun _ => { goal := 1, now := 0 }) (fun _ _ => 0)
    (fun _ => { startLba := 0, sectorNum := 8192 }) (fun _ => 0) (fun _ _ => 0) 0

/-- The page that a holder has. -/
def holds (s : PoolSystem) : Holder → Option Nat
  | .directory i =>
    if s.kernel.toCore.Lives none i then some (s.kernel.pcb i).pageTable else none
  | .emptyTable => some s.kernel.mm.globalEmptyPt
  | .table i j =>
    let pt := s.kernel.mm.tables (s.kernel.pcb i).pageTable j
    if s.kernel.toCore.Lives none i ∧ j < numEntry ∧ pt ≠ s.kernel.mm.globalEmptyPt then some pt
    else none
  | .zeroPage => some kernelPageStart
  | .files => some (kernelPageStart + blockSize)
  | .superBlock => if s.fs.fsMounted then some s.fs.fsSuperBlock else none
  | .buffer i => if (s.fs.cache.buff i).page ≠ 0 then some (s.fs.cache.buff i).page else none
  | .catBuff => s.catBuff

/-- The boot code does not wait, and user addresses have 32 bits. -/
def Called (s : PoolSystem) : PoolEvent → Prop
  | .kernel e => BootOk s.kernel.toCore e ∧ ∀ addr ∈ e.call.faultAddr, addr < 2 ^ 32
  | _ => True

/-- A page fault that needs a new page table finds one in front of the kernel
pages. -/
def Fits (s : PoolSystem) : PoolEvent → Prop
  | .kernel e => ∀ addr ∈ e.call.faultAddr, s.kernel.mm.TableFits kernelPageStart addr
  | _ => True

instance (s : PoolSystem) : (e : PoolEvent) → Decidable (s.Called e)
  | .kernel _ => inferInstanceAs (Decidable (_ ∧ ∀ _ ∈ _, _))
  | .fs _ => isTrue trivial
  | .takeBuff => isTrue trivial
  | .giveBuff => isTrue trivial

instance (s : PoolSystem) : (e : PoolEvent) → Decidable (s.Fits e)
  | .kernel _ => inferInstanceAs (Decidable (∀ _ ∈ _, _))
  | .fs _ => isTrue trivial
  | .takeBuff => isTrue trivial
  | .giveBuff => isTrue trivial

end PoolSystem

/-- The three pools. -/
inductive Pool where
  | pgd
  | pt
  | kernel
  deriving DecidableEq

/-- The pool that the page is from. -/
def Holder.pool : Holder → Pool
  | .directory _ => .pgd
  | .emptyTable => .pt
  | .table _ _ => .pt
  | _ => .kernel

/-- The size of a page. -/
def Pool.bytes : Pool → Nat
  | .pgd => tableSize
  | .pt => tableSize
  | .kernel => blockSize

/-- Where the pages of the pool begin. -/
def Pool.start : Pool → Nat
  | .pgd => pgdStart
  | .pt => ptStart
  | .kernel => kernelPageStart

/-- Where the pages of the pool end. -/
def Pool.stop : Pool → Nat
  | .pgd => ptStart
  | .pt => kernelPageStart
  | .kernel => kernelPageStart + 64 * blockSize

/-- The byte ranges have nothing in common. -/
def Apart (a n b m : Nat) : Prop := a + n ≤ b ∨ b + m ≤ a

instance (a n b m : Nat) : Decidable (Apart a n b m) := inferInstanceAs (Decidable (_ ∨ _))

namespace PoolSystem

/-! ## The kernel pages -/

/-- The kernel pages that belong to no buffer. -/
def owners (s : PoolSystem) : Finset Nat := s.fs.owners ∪ s.catBuff.toFinset

/-- The kernel pool has handed out the pages of the buffers and of the owners,
and the owners have different pages. -/
structure KernelPages (s : PoolSystem) : Prop where
  wf : s.fs.cache.Wf s.owners
  super : s.fs.fsMounted = true → s.fs.fsSuperBlock ∉ bootPages
  cat : ∀ a, s.catBuff = some a → a ∉ s.fs.owners

section KernelPages

variable {s s' : PoolSystem}

theorem owners_eq (s : PoolSystem) (hmounted : s.fs.fsMounted = false) :
    s.owners = bootPages ∪ s.catBuff.toFinset := by
  rw [owners, FileSystem.owners, hmounted]
  rfl

theorem owners_mounted (s : PoolSystem) (hmounted : s.fs.fsMounted = true) :
    s.owners = insert s.fs.fsSuperBlock (bootPages ∪ s.catBuff.toFinset) := by
  rw [owners, FileSystem.owners, hmounted, if_pos rfl, Finset.insert_union]

theorem card_owners_lt (s : PoolSystem) : s.owners.card < 8 := by
  have hboot : bootPages.card = 2 := by decide
  have hcat : s.catBuff.toFinset.card ≤ 1 := by
    cases s.catBuff <;> simp
  have hbase := Finset.card_union_le bootPages s.catBuff.toFinset
  cases hmounted : s.fs.fsMounted with
  | false =>
    rw [s.owners_eq hmounted]
    omega
  | true =>
    rw [s.owners_mounted hmounted]
    have hsuper := Finset.card_insert_le s.fs.fsSuperBlock (bootPages ∪ s.catBuff.toFinset)
    omega

theorem writeSuperBlock_wf {m : FileSystem} {extra : Finset Nat} (h : m.cache.Wf extra) :
    m.writeSuperBlock.cache.Wf extra := by
  unfold FileSystem.writeSuperBlock
  exact h.congr rfl (fun _ => rfl) fun _ => rfl

theorem overwrite_wf {c c' : Cache} {extra : Finset Nat} {b : Nat} {x : Block} (h : c.Wf extra)
    (hrun : c.overwrite b x = some c') : c'.Wf extra := by
  unfold Cache.overwrite at hrun
  obtain ⟨r, hget, hdone⟩ := Option.bind_eq_some_iff.mp hrun
  obtain rfl := Option.some.inj hdone
  apply blockCommit_wf
  exact (blockGet_wf h hget).congr rfl (fun _ => rfl) fun _ => rfl

theorem foldlM_overwrite_wf (blocks : List (Nat × Block)) {c c' : Cache} {extra : Finset Nat}
    (h : c.Wf extra) (hrun : blocks.foldlM (fun c (b, x) => c.overwrite b x) c = some c') :
    c'.Wf extra := by
  induction blocks generalizing c with
  | nil =>
    obtain rfl := Option.some.inj hrun
    exact h
  | cons e rest ih =>
    rw [List.foldlM_cons] at hrun
    obtain ⟨c₁, hfirst, hrest⟩ := Option.bind_eq_some_iff.mp hrun
    exact ih (overwrite_wf h hfirst) hrest

/-- A super block is put into a new page. -/
theorem KernelPages.select (h : s.KernelPages) (p : Fin 4) :
    (s.fs.select p).cache.Wf (insert s.fs.cache.newPage s.owners) ∧
      s.fs.cache.newPage ∉ s.owners := by
  obtain ⟨_, hfresh⟩ := h.wf.newPage_fresh
  refine ⟨?_, fun hmem => hfresh (Finset.mem_union_left _ hmem)⟩
  exact (h.wf.alloc s.card_owners_lt).congr rfl (fun _ => rfl) fun _ => rfl

/-- The super block is in the page. -/
theorem KernelPages.mounted (h : s.KernelPages) (hmounted : s.fs.fsMounted = false)
    {m : FileSystem} (hwf : m.cache.Wf (insert s.fs.cache.newPage s.owners))
    (hsuper : m.fsSuperBlock = s.fs.cache.newPage) (hm : m.fsMounted = true) :
    KernelPages { s with fs := m } := by
  obtain ⟨_, hfresh⟩ := h.wf.newPage_fresh
  have hnot : s.fs.cache.newPage ∉ bootPages ∪ s.catBuff.toFinset := by
    rw [← s.owners_eq hmounted]
    exact fun hmem => hfresh (Finset.mem_union_left _ hmem)
  rw [Finset.mem_union, not_or] at hnot
  refine ⟨?_, fun _ => ?_, fun a ha => ?_⟩
  · rw [owners_mounted _ hm]
    show m.cache.Wf (insert m.fsSuperBlock (bootPages ∪ s.catBuff.toFinset))
    rw [hsuper, ← s.owners_eq hmounted]
    exact hwf
  · show m.fsSuperBlock ∉ bootPages
    rw [hsuper]
    exact hnot.1
  · show a ∉ m.owners
    rw [FileSystem.owners, if_pos hm, hsuper, Finset.mem_insert, not_or]
    have hold := h.cat a ha
    rw [FileSystem.owners, hmounted] at hold
    refine ⟨?_, hold⟩
    rintro rfl
    exact hnot.2 (Option.mem_toFinset.mpr ha)

/-- The page of the super block is given back. -/
theorem KernelPages.unmounted (h : s.KernelPages) {m : FileSystem}
    (hwf : m.cache.Wf (bootPages ∪ s.catBuff.toFinset)) (hm : m.fsMounted = false) :
    KernelPages { s with fs := m } := by
  refine ⟨?_, fun hm' => ?_, fun a ha => ?_⟩
  · rw [owners_eq _ hm]
    exact hwf
  · rw [show m.fsMounted = true from hm'] at hm
    cases hm
  · show a ∉ m.owners
    have hold := h.cat a ha
    rw [FileSystem.owners, hm]
    unfold FileSystem.owners at hold
    split at hold
    · exact fun hmem => hold (Finset.mem_insert_of_mem hmem)
    · exact hold

theorem KernelPages.mount (h : s.KernelPages) (p : Fin 4) :
    KernelPages { s with fs := (mountFileSystem s.fs p).2 } := by
  unfold mountFileSystem
  cases hmounted : s.fs.fsMounted with
  | true => exact h
  | false =>
    obtain ⟨hselect, hfresh⟩ := h.select p
    simp only [Bool.false_eq_true, if_false]
    split
    · refine h.unmounted ?_ hmounted
      have hpoked : ((s.fs.select p).cache.poke (s.fs.select p).fsSuperBlock
          (blockRead (s.fs.select p).cache.table (s.fs.select p).cache.card p 1)).Wf
          (insert s.fs.cache.newPage s.owners) :=
        hselect.congr rfl (fun _ => rfl) fun _ => rfl
      have hfree := hpoked.free (Finset.mem_insert_self _ _)
      rw [Finset.erase_insert hfresh, s.owners_eq hmounted] at hfree
      exact hfree
    · exact h.mounted hmounted (hselect.congr rfl (fun _ => rfl) fun _ => rfl) rfl rfl

theorem KernelPages.init (h : s.KernelPages) {p : Fin 4} {m : FileSystem}
    (hinit : initFileSystem s.fs p = some m) : KernelPages { s with fs := m } := by
  unfold initFileSystem at hinit
  cases hmounted : s.fs.fsMounted with
  | true =>
    rw [hmounted] at hinit
    obtain rfl := Option.some.inj hinit
    exact h
  | false =>
    simp only [hmounted, Bool.false_eq_true, if_false] at hinit
    obtain ⟨c, hfold, hdone⟩ := Option.bind_eq_some_iff.mp hinit
    obtain rfl := Option.some.inj hdone
    obtain ⟨hselect, _⟩ := h.select p
    have hsetup : (s.fs.setup p).cache.Wf (insert s.fs.cache.newPage s.owners) :=
      hselect.congr rfl (fun _ => rfl) fun _ => rfl
    generalize setupBlocks (setupSuperBlock _) = blocks at hfold
    exact h.mounted hmounted (foldlM_overwrite_wf blocks hsetup hfold) rfl rfl

theorem KernelPages.unmount (h : s.KernelPages) :
    KernelPages { s with fs := (unmountFileSystem s.fs).2 } := by
  unfold unmountFileSystem
  cases hmounted : s.fs.fsMounted with
  | false => exact h
  | true =>
    have howners := s.owners_mounted hmounted
    have hmem : s.fs.fsSuperBlock ∈ s.owners := by
      rw [howners]
      exact Finset.mem_insert_self _ _
    have hnot : s.fs.fsSuperBlock ∉ bootPages ∪ s.catBuff.toFinset := by
      rw [Finset.mem_union, not_or]
      refine ⟨h.super hmounted, fun hcat => ?_⟩
      apply h.cat _ (Option.mem_toFinset.mp hcat)
      rw [FileSystem.owners, if_pos hmounted]
      exact Finset.mem_insert_self _ _
    have hsunk := blockSink_wf h.wf
    simp only [Bool.not_true, Bool.false_eq_true, if_false]
    generalize blockSink s.fs.cache = c at hsunk ⊢
    have hfree := (writeSuperBlock_wf (m := { s.fs with cache := c }) hsunk).free hmem
    rw [howners, Finset.erase_insert hnot] at hfree
    exact h.unmounted hfree rfl

theorem KernelPages.fileSystemStep (h : s.KernelPages) {op : MountOp} {m : FileSystem}
    (hstep : fileSystemStep s.fs op = some m) : KernelPages { s with fs := m } := by
  cases op with
  | mount p =>
    obtain rfl := Option.some.inj hstep
    exact h.mount p
  | init p => exact h.init hstep
  | unmount =>
    obtain rfl := Option.some.inj hstep
    exact h.unmount
  | get b doRead =>
    obtain ⟨r, hget, rfl⟩ := Option.map_eq_some_iff.mp hstep
    exact ⟨blockGet_wf h.wf hget, h.super, h.cat⟩
  | write page x =>
    obtain rfl := Option.some.inj hstep
    exact ⟨h.wf.congr rfl (fun _ => rfl) fun _ => rfl, h.super, h.cat⟩
  | commit page doWrite =>
    obtain rfl := Option.some.inj hstep
    exact ⟨blockCommit_wf h.wf page doWrite, h.super, h.cat⟩

theorem KernelPages.takeBuff (h : s.KernelPages) (hnone : s.catBuff = none) :
    KernelPages { s with
      fs :=
        { s.fs with
          cache :=
            { s.fs.cache with pageCtrlKernel := (allocPage s.fs.cache.pageCtrlKernel).2 } }
      catBuff := some s.fs.cache.newPage } := by
  obtain ⟨_, hfresh⟩ := h.wf.newPage_fresh
  have howners : s.owners = s.fs.owners := by
    rw [owners, hnone]
    exact Finset.union_empty _
  refine ⟨?_, h.super, fun a ha => ?_⟩
  · have halloc := h.wf.alloc s.card_owners_lt
    rw [howners] at halloc
    show Cache.Wf _ (s.fs.owners ∪ (some s.fs.cache.newPage).toFinset)
    rw [Option.toFinset_some, Finset.union_comm, ← Finset.insert_eq]
    exact halloc
  · obtain rfl := Option.some.inj ha
    rw [howners] at hfresh
    exact fun hmem => hfresh (Finset.mem_union_left _ hmem)

theorem KernelPages.giveBuff (h : s.KernelPages) {page : Nat} (hcat : s.catBuff = some page) :
    KernelPages { s with
      fs :=
        { s.fs with
          cache :=
            { s.fs.cache with pageCtrlKernel := freePage s.fs.cache.pageCtrlKernel page } }
      catBuff := none } := by
  have howners : s.owners = insert page s.fs.owners := by
    rw [owners, hcat, Option.toFinset_some, Finset.union_comm, ← Finset.insert_eq]
  refine ⟨?_, h.super, fun a ha => by cases ha⟩
  have hfree := h.wf.free (a := page) (by rw [howners]; exact Finset.mem_insert_self _ _)
  rw [howners, Finset.erase_insert (h.cat page hcat)] at hfree
  show Cache.Wf _ (s.fs.owners ∪ (none : Option Nat).toFinset)
  rw [Option.toFinset_none, Finset.union_empty]
  exact hfree

/-- The kind of holder that the page tells. -/
def level (s : PoolSystem) (a : Nat) : Nat :=
  if a ∈ bootPages then 0 else if a ∈ s.fs.owners then 1 else if a ∈ s.owners then 2 else 3

/-- The kind of a holder of a kernel page. -/
def kind : Holder → Nat
  | .superBlock => 1
  | .catBuff => 2
  | .buffer _ => 3
  | _ => 0

theorem KernelPages.level_eq (h : s.KernelPages) {x : Holder} (hx : x.pool = .kernel) {a : Nat}
    (ha : s.holds x = some a) : s.level a = kind x := by
  have hboot : ∀ b, b ∈ bootPages → b ∈ s.fs.owners := by
    intro b hb
    unfold FileSystem.owners
    split
    · exact Finset.mem_insert_of_mem hb
    · exact hb
  have hsub : ∀ b, b ∈ s.fs.owners → b ∈ s.owners := fun b hb => Finset.mem_union_left _ hb
  unfold level
  cases x with
  | directory i => cases hx
  | emptyTable => cases hx
  | table i j => cases hx
  | zeroPage =>
    obtain rfl := Option.some.inj ha
    exact if_pos (by decide)
  | files =>
    obtain rfl := Option.some.inj ha
    exact if_pos (by decide)
  | superBlock =>
    simp only [holds] at ha
    split at ha
    · rename_i hm
      obtain rfl := Option.some.inj ha
      rw [if_neg (h.super hm), FileSystem.owners, if_pos hm, if_pos (Finset.mem_insert_self _ _)]
      rfl
    · cases ha
  | catBuff =>
    have hnot := h.cat a ha
    have hmem : a ∈ s.owners := Finset.mem_union_right _ (Option.mem_toFinset.mpr ha)
    rw [if_neg fun hb => hnot (hboot a hb), if_neg hnot, if_pos hmem]
    rfl
  | buffer i =>
    simp only [holds] at ha
    split at ha
    · rename_i hpage
      obtain rfl := Option.some.inj ha
      have hnot : (s.fs.cache.buff i).page ∉ s.owners := fun hmem =>
        Finset.disjoint_left.mp h.wf.extra_disjoint hmem (Cache.mem_pages.mpr ⟨hpage, i, rfl⟩)
      rw [if_neg fun hb => hnot (hsub _ (hboot _ hb)), if_neg fun hb => hnot (hsub _ hb),
        if_neg hnot]
      rfl
    · cases ha

/-- Different holders of kernel pages have different pages. -/
theorem KernelPages.ne (h : s.KernelPages) {x y : Holder} (hx : x.pool = .kernel)
    (hy : y.pool = .kernel) (hxy : x ≠ y) {a b : Nat} (ha : s.holds x = some a)
    (hb : s.holds y = some b) : a ≠ b := by
  rintro rfl
  have hkind : kind x = kind y := (h.level_eq hx ha).symm.trans (h.level_eq hy hb)
  have hconst : kernelPageStart ≠ kernelPageStart + blockSize := by decide
  cases x with
  | directory i => cases hx
  | emptyTable => cases hx
  | table i j => cases hx
  | zeroPage =>
    cases y with
    | files => exact hconst (Option.some.inj (ha.trans hb.symm))
    | zeroPage => exact hxy rfl
    | directory i => cases hy
    | emptyTable => cases hy
    | table i j => cases hy
    | _ => cases hkind
  | files =>
    cases y with
    | zeroPage => exact hconst (Option.some.inj (hb.trans ha.symm))
    | files => exact hxy rfl
    | directory i => cases hy
    | emptyTable => cases hy
    | table i j => cases hy
    | _ => cases hkind
  | superBlock =>
    cases y with
    | superBlock => exact hxy rfl
    | _ => cases hkind
  | catBuff =>
    cases y with
    | catBuff => exact hxy rfl
    | _ => cases hkind
  | buffer i =>
    cases y with
    | buffer j =>
      simp only [holds] at ha hb
      split at ha
      · rename_i hpage
        split at hb
        · have heq := (Option.some.inj ha).trans (Option.some.inj hb).symm
          exact hxy (congrArg Holder.buffer (h.wf.page_inj i j hpage heq))
        · cases hb
      · cases ha
    | _ => cases hkind

end KernelPages

/-! ## Runs -/

/-- The kernel follows a list kernel whose page tables have one owner each. -/
structure Inv (s : PoolSystem) (a : Kernel ListQueues) : Prop where
  follows : Follows a s.kernel
  boot : BootInv a
  spaces : SpacesOf (OwnsTables kernelPageStart) none a
  current : CurrentSpace a
  pages : s.KernelPages

section Runs

variable {s s' : PoolSystem} {a a' : Kernel ListQueues} {e : Event}

theorem ownRules_tables (limit : Nat) : OwnRules (OwnsTables limit) where
  setCurrentPgd _ _ pgd h := h.setCurrentPgd pgd
  newPgd _ _ h hcard := h.newPgd hcard
  freePgd _ _ _ h hpgd := h.freePgd hpgd

/-- An event whose new page table fits keeps the page tables. -/
theorem spaces_step (hboot : BootInv a) (hspaces : SpacesOf (OwnsTables kernelPageStart) none a)
    (hcur : CurrentSpace a)
    (hfits : ∀ addr ∈ e.call.faultAddr, a.mm.TableFits kernelPageStart addr) :
    Safe (kernelStep a e) fun a' =>
      SpacesOf (OwnsTables kernelPageStart) none a' ∧ CurrentSpace a' := by
  by_cases hzero : e.call = .kill 0
  · rw [hboot.kill_zero hzero]
    trivial
  · by_cases htwice : ∃ pid, e.call = .kill pid ∧
        a.toCore.findPid pid = some a.currentRunning ∧ a.cur.status = .exited
    · obtain ⟨pid, hcall, hfind, hex⟩ := htwice
      rw [hboot.kill_twice hcall hfind hex]
      trivial
    · have hstep := hspaces.step_of (ownRules_tables kernelPageStart) hcur hboot.toSchedInv
        (e := e) (R := fun _ => True) (fun pid hcall => ⟨?_, ?_⟩) fun addr hcall hpgd _ =>
          hspaces.owns.doTlbRefill hpgd (hfits addr (by rw [hcall]; rfl)) (by decide)
      · exact hstep.mono fun _ hk => hk trivial
      · rintro rfl
        exact hzero hcall
      · intro hfind hex
        exact htwice ⟨pid, hcall, hfind, hex⟩

theorem inv_boot (barrier : BarrierId → Barrier) (tables : Nat → Nat → Nat)
    (table : PartitionTable) (card : Card) (mem : Nat → Block) (part : Fin 4) :
    (boot barrier tables table card mem part).Inv (bootLists barrier tables) where
  follows := bootLists_follows barrier tables
  boot := bootLists_bootInv barrier tables
  spaces := by
    obtain ⟨⟨howns, hinj, hzero⟩, _⟩ := bootLists_spaces barrier tables
    have hnext : (bootLists barrier tables).mm.pageCtrlPt.nextPageAddr = ptStart + tableSize :=
      rfl
    refine ⟨⟨⟨_, .refl _ _, howns⟩, ?_, ?_⟩, hinj, hzero⟩
    · rw [hnext]
      exact Nat.le_add_right _ _
    · rw [hnext]
      decide
  current := (bootLists_spaces barrier tables).2
  pages := by
    have howners : (boot barrier tables table card mem part).owners = bootPages := rfl
    refine ⟨?_, (by intro hm; cases hm), (by intro a ha; cases ha)⟩
    rw [howners]
    exact bootCache_wf table card mem part

theorem Inv.step (h : s.Inv a) {e : PoolEvent} (hcalled : s.Called e) (hfits : s.Fits e)
    (hstep : s.step e = some s') : ∃ a', s'.Inv a' := by
  obtain ⟨hfollows, hboot, hspaces, hcur, hpages⟩ := h
  cases e with
  | kernel e =>
    obtain ⟨k', hk', rfl⟩ := Option.map_eq_some_iff.mp hstep
    obtain ⟨hok, _⟩ := hcalled
    have hfits' : ∀ addr ∈ e.call.faultAddr, a.mm.TableFits kernelPageStart addr := by
      intro addr haddr
      rw [← hfollows.core]
      exact hfits addr haddr
    obtain ⟨a', hfollows', hboot', ha', _⟩ := hboot.follow hfollows hok hk'
    obtain ⟨hspaces', hcur'⟩ := (spaces_step hboot hspaces hcur hfits').of_ok ha'
    exact ⟨a', hfollows', hboot', hspaces', hcur', hpages.wf, hpages.super, hpages.cat⟩
  | fs op =>
    obtain ⟨m, hm, rfl⟩ := Option.map_eq_some_iff.mp hstep
    exact ⟨a, hfollows, hboot, hspaces, hcur, hpages.fileSystemStep hm⟩
  | takeBuff =>
    by_cases hnone : s.catBuff = none
    · rw [PoolSystem.step, if_pos hnone] at hstep
      obtain rfl := Option.some.inj hstep
      exact ⟨a, hfollows, hboot, hspaces, hcur, hpages.takeBuff hnone⟩
    · rw [PoolSystem.step, if_neg hnone] at hstep
      cases hstep
  | giveBuff =>
    obtain ⟨page, hcat, rfl⟩ := Option.map_eq_some_iff.mp hstep
    exact ⟨a, hfollows, hboot, hspaces, hcur, hpages.giveBuff hcat⟩

/-- A page table in a directory of a live process. -/
theorem Inv.table (h : s.Inv a) {i : Task} {j addr : Nat} (ht : s.holds (.table i j) = some addr) :
    a.toCore.Lives none i ∧
      a.mm.Dir (a.toCore.livePgds none) (a.pcb i).pageTable j ∧
      a.mm.tables (a.pcb i).pageTable j = addr := by
  simp only [holds, h.follows.core] at ht
  split at ht
  · rename_i hlive
    obtain ⟨hlive, hj, hne⟩ := hlive
    exact ⟨hlive, ⟨mem_livePgds.mpr ⟨i, hlive, rfl⟩, hj, hne⟩, Option.some.inj ht⟩
  · cases ht

theorem Inv.directory (h : s.Inv a) {i : Task} {addr : Nat}
    (hd : s.holds (.directory i) = some addr) :
    a.toCore.Lives none i ∧ (a.pcb i).pageTable = addr := by
  simp only [holds, h.follows.core] at hd
  split at hd
  · exact ⟨‹_›, Option.some.inj hd⟩
  · cases hd

/-- A page of the kernel pool is one of the first 64. -/
theorem KernelPages.placed (h : s.KernelPages) {addr : Nat}
    (hmem : addr ∈ s.owners ∪ s.fs.cache.pages) :
    ∃ k < 64, addr = kernelPageStart + k * blockSize := by
  obtain ⟨n, hn, hexact⟩ := h.wf.pool
  obtain ⟨k, hk, hcarved⟩ := hexact.live_carved addr hmem
  refine ⟨k, by omega, ?_⟩
  rw [h.wf.start, h.wf.size, carvedPage] at hcarved
  rw [hcarved]
  apply Nat.mod_eq_of_lt
  simp only [kernelPageStart, blockSize]
  omega

/-- The kernel pool has handed out the page. -/
theorem KernelPages.mem (h : s.KernelPages) {x : Holder} (hpool : x.pool = .kernel) {addr : Nat}
    (hx : s.holds x = some addr) : addr ∈ s.owners ∪ s.fs.cache.pages := by
  have hlevel := h.level_eq hpool hx
  by_cases hmem : addr ∈ s.owners
  · exact Finset.mem_union_left _ hmem
  · cases x with
    | buffer i =>
      simp only [holds] at hx
      split at hx
      · obtain rfl := Option.some.inj hx
        exact Finset.mem_union_right _ (Cache.mem_pages.mpr ⟨‹_›, i, rfl⟩)
      · cases hx
    | directory i => cases hpool
    | emptyTable => cases hpool
    | table i j => cases hpool
    | _ =>
      exfalso
      have hfs : addr ∉ s.fs.owners := fun hin => hmem (Finset.mem_union_left _ hin)
      have hboot : addr ∉ bootPages := by
        intro hin
        apply hfs
        unfold FileSystem.owners
        split
        · exact Finset.mem_insert_of_mem hin
        · exact hin
      rw [level, if_neg hboot, if_neg hfs, if_neg hmem] at hlevel
      cases hlevel

/-- Every page is in its pool. -/
theorem Inv.placed (h : s.Inv a) {x : Holder} {addr : Nat} (hx : s.holds x = some addr) :
    ∃ k, addr = x.pool.start + k * x.pool.bytes ∧ addr + x.pool.bytes ≤ x.pool.stop := by
  have hkernel : x.pool = .kernel →
      ∃ k, addr = x.pool.start + k * x.pool.bytes ∧ addr + x.pool.bytes ≤ x.pool.stop := by
    intro hpool
    obtain ⟨k, hk, haddr⟩ := h.pages.placed (h.pages.mem hpool hx)
    rw [hpool]
    refine ⟨k, haddr, ?_⟩
    simp only [Pool.bytes, Pool.stop, blockSize] at haddr ⊢
    omega
  cases x with
  | directory i =>
    obtain ⟨hlive, rfl⟩ := h.directory hx
    obtain ⟨k, hk, haddr⟩ := h.spaces.owns.pgd_bounds (mem_livePgds.mpr ⟨i, hlive, rfl⟩)
    refine ⟨k, haddr, ?_⟩
    rw [haddr]
    simp only [Holder.pool, Pool.bytes, Pool.stop, pgdStart, ptStart, tableSize]
    omega
  | emptyTable =>
    simp only [holds, h.follows.core] at hx
    obtain rfl := Option.some.inj hx
    exact h.spaces.owns.table_bounds (Or.inl rfl)
  | table i j =>
    obtain ⟨_, hdir, haddr⟩ := h.table hx
    exact h.spaces.owns.table_bounds (Or.inr ⟨_, _, hdir, haddr⟩)
  | _ => exact hkernel rfl

/-- Different holders of pages of one pool have different pages. -/
theorem Inv.ne (h : s.Inv a) {x y : Holder} (hpool : x.pool = y.pool) (hxy : x ≠ y) {b c : Nat}
    (hx : s.holds x = some b) (hy : s.holds y = some c) : b ≠ c := by
  have hempty : ∀ {i j b c}, s.holds (.table i j) = some b → s.holds .emptyTable = some c →
      b ≠ c := by
    intro i j b c ht he
    obtain ⟨_, hdir, rfl⟩ := h.table ht
    simp only [holds, h.follows.core] at he
    obtain rfl := Option.some.inj he
    exact hdir.2.2
  cases hkind : x.pool with
  | kernel => exact h.pages.ne hkind (hpool.symm.trans hkind) hxy hx hy
  | pgd =>
    cases x with
    | directory i =>
      cases y with
      | directory j =>
        obtain ⟨hlive, rfl⟩ := h.directory hx
        obtain ⟨hlive', rfl⟩ := h.directory hy
        intro heq
        exact hxy (congrArg Holder.directory (h.spaces.inj i j hlive hlive' heq))
      | _ => cases hpool
    | _ => cases hkind
  | pt =>
    cases x with
    | emptyTable =>
      cases y with
      | emptyTable => exact absurd rfl hxy
      | table i j => exact (hempty hy hx).symm
      | _ => cases hpool
    | table i j =>
      cases y with
      | emptyTable => exact hempty hx hy
      | table i' j' =>
        obtain ⟨hlive, hdir, rfl⟩ := h.table hx
        obtain ⟨hlive', hdir', rfl⟩ := h.table hy
        intro heq
        obtain ⟨hpgd, rfl⟩ := h.spaces.owns.dir_inj hdir hdir' heq
        obtain rfl := h.spaces.inj i i' hlive hlive' hpgd
        exact hxy rfl
      | _ => cases hpool
    | _ => cases hkind

theorem Pool.apart {p q : Pool} {b c k l : Nat} (hb : b = p.start + k * p.bytes)
    (hb' : b + p.bytes ≤ p.stop) (hc : c = q.start + l * q.bytes) (hc' : c + q.bytes ≤ q.stop)
    (hne : p = q → b ≠ c) : Apart b p.bytes c q.bytes := by
  unfold Apart
  cases p <;> cases q <;>
    simp only [Pool.start, Pool.bytes, Pool.stop, pgdStart, ptStart, kernelPageStart, tableSize,
      blockSize, forall_const, reduceCtorEq, false_implies] at hb hb' hc hc' hne ⊢ <;> omega

/-- In every run from boot whose new page tables fit in front of the kernel
pages, the pages of different holders have no byte in common. -/
theorem pools_apart (barrier : BarrierId → Barrier) (tables : Nat → Nat → Nat)
    (table : PartitionTable) (card : Card) (mem : Nat → Block) (part : Fin 4)
    (h : Reaches step (fun s e => s.Called e ∧ s.Fits e)
      (boot barrier tables table card mem part) s)
    {x y : Holder} (hxy : x ≠ y) {b c : Nat} (hx : s.holds x = some b) (hy : s.holds y = some c) :
    Apart b x.pool.bytes c y.pool.bytes := by
  have hinv : ∃ a, s.Inv a := by
    apply h.invariant (fun s => ∃ a, s.Inv a) ⟨_, inv_boot barrier tables table card mem part⟩
    intro s e s' hs hok hstep
    obtain ⟨a, hs⟩ := hs
    exact hs.step hok.1 hok.2 hstep
  obtain ⟨a, hinv⟩ := hinv
  obtain ⟨k, hb, hb'⟩ := hinv.placed hx
  obtain ⟨l, hc, hc'⟩ := hinv.placed hy
  exact Pool.apart hb hb' hc hc' fun hpool => hinv.ne hpool hxy hx hy

/-- The first page table of the shell and `zero_page`. -/
theorem blank_first_table_apart :
    ∃ s, runIf step (fun s e => s.Called e ∧ s.Fits e) blank
        [.kernel ⟨0, .spawn 0⟩, .kernel ⟨0, .yield⟩, .fs (.get 2 true),
          .kernel ⟨0, .pageFault 0⟩] = some s ∧
      s.holds (.table 1 0) = some (ptStart + tableSize) ∧
      Apart (ptStart + tableSize) tableSize kernelPageStart blockSize := by
  have hrun : (runIf step (fun s e => s.Called e ∧ s.Fits e) blank
      [.kernel ⟨0, .spawn 0⟩, .kernel ⟨0, .yield⟩, .fs (.get 2 true),
        .kernel ⟨0, .pageFault 0⟩]).map (fun s => s.holds (.table 1 0)) =
      some (some (ptStart + tableSize)) := by
    decide +kernel
  obtain ⟨s, hs, htable⟩ := Option.map_eq_some_iff.mp hrun
  refine ⟨s, hs, htable, ?_⟩
  exact pools_apart _ _ _ _ _ _ (reaches_of_runIf hs) (x := .table 1 0) (y := .zeroPage)
    (by decide) htable rfl

end Runs

/-! ## A run that needs more page tables -/

section Exhaustion

variable {s : PoolSystem} {m : Memory} {K K' : Kernel PtrQueues} {pgd n : Nat}

/-- The running process touches its first `n` regions of 4 MiB. -/
theorem fill_reaches (hcur : s.kernel.mm.currentPgd < s.kernel.mm.pageCtrlPt.nextPageAddr)
    (hne : s.kernel.mm.currentPgd ≠ 0) (hfree : s.kernel.mm.pageCtrlPt.freePages = [])
    (hsize : s.kernel.mm.pageCtrlPt.pageSize = tableSize)
    (hempty : ∀ j < n, s.kernel.mm.tables s.kernel.mm.currentPgd j = s.kernel.mm.globalEmptyPt)
    (hn : n ≤ 512) (hroom : s.kernel.mm.pageCtrlPt.nextPageAddr + n * tableSize < 2 ^ 64) :
    ∃ m', Reaches step Called s { s with kernel := { s.kernel with mm := m' } } ∧
      TablesFilled s.kernel.mm m' n := by
  induction n with
  | zero =>
    refine ⟨s.kernel.mm, .refl s, rfl, rfl, hfree, hsize, ?_, fun _ _ _ => rfl, fun _ _ => rfl,
      fun j hj => ?_⟩
    · rw [Nat.zero_mul, Nat.add_zero]
    · omega
  | succ n ih =>
    rw [Nat.succ_mul] at hroom
    obtain ⟨m', hreach, hfilled⟩ := ih (fun j hj => hempty j (by omega)) (by omega) (by omega)
    refine ⟨m'.doTlbRefill (n <<< 22), hreach.snoc (e := .kernel ⟨0, .pageFault (n <<< 22)⟩)
      ⟨fun _ => rfl, ?_⟩ ?_, hfilled.succ hcur (hempty n (by omega)) ?_ ?_⟩
    · intro addr haddr
      obtain rfl := Option.some.inj haddr
      rw [Nat.shiftLeft_eq]
      omega
    · have hcur' : m'.currentPgd ≠ 0 := by
        rw [hfilled.currentPgd]
        exact hne
      apply Option.map_eq_some_iff.mpr
      refine ⟨{ s.kernel with mm := m'.doTlbRefill (n <<< 22) }, kernelRun_eq_some.mpr ?_, rfl⟩
      show Kernel.pageFault { s.kernel with mm := m' } (n <<< 22) = _
      exact if_neg hcur'
    · rw [numEntry]
      omega
    · rw [Nat.succ_mul]
      omega

/-- The next process runs and touches its first `n` regions. -/
theorem yield_fill_reaches (hs : s.kernel = { K with mm := m })
    (hyield : ∀ m, kernelRun { K with mm := m } ⟨0, .yield⟩ =
      some { K' with mm := { m with currentPgd := pgd } })
    (hcur : pgd < m.pageCtrlPt.nextPageAddr) (hne : pgd ≠ 0)
    (hfree : m.pageCtrlPt.freePages = []) (hsize : m.pageCtrlPt.pageSize = tableSize)
    (hempty : ∀ j < n, m.tables pgd j = m.globalEmptyPt) (hn : n ≤ 512)
    (hroom : m.pageCtrlPt.nextPageAddr + n * tableSize < 2 ^ 64) :
    ∃ m', Reaches step Called s { s with kernel := { K' with mm := m' } } ∧
      TablesFilled { m with currentPgd := pgd } m' n := by
  have hstep : s.step (.kernel ⟨0, .yield⟩) =
      some { s with kernel := { K' with mm := { m with currentPgd := pgd } } } := by
    show (kernelRun s.kernel ⟨0, .yield⟩).map _ = _
    rw [hs, hyield]
    rfl
  obtain ⟨m', hreach, hfilled⟩ := fill_reaches
    (s := { s with kernel := { K' with mm := { m with currentPgd := pgd } } }) hcur hne hfree hsize
    hempty hn hroom
  refine ⟨m', ?_, hfilled⟩
  exact ((Reaches.refl s).snoc ⟨fun _ => rfl, by intro _ h; cases h⟩ hstep).trans hreach

/-- The kernel after four processes have been spawned and `k` of them called. -/
def turn : Nat → Kernel PtrQueues
  | 0 => (runIf kernelRun (fun k e => BootOk k.toCore e) blankKernel
      [⟨0, .spawn 0⟩, ⟨0, .spawn 0⟩, ⟨0, .spawn 0⟩, ⟨0, .spawn 0⟩]).getD blankKernel
  | k + 1 => (kernelRun (turn k) ⟨0, .yield⟩).getD (turn k)

/-- The next process is called, whatever the page tables are. -/
theorem turn_yield {k : Nat} (hk : k < 4) (m : Memory) :
    kernelRun { turn k with mm := m } ⟨0, .yield⟩ =
      some { turn (k + 1) with mm := { m with currentPgd := pgdStart + k * tableSize } } := by
  interval_cases k <;> rfl

/-- Each of the first `k` processes has touched 512 regions, and the others
none. -/
structure Touched (k : Nat) (m : Memory) : Prop where
  globalEmptyPt : m.globalEmptyPt = ptStart
  freePages : m.pageCtrlPt.freePages = []
  pageSize : m.pageCtrlPt.pageSize = tableSize
  next : m.pageCtrlPt.nextPageAddr = ptStart + (1 + k * 512) * tableSize
  empty : ∀ i < 4, k ≤ i → ∀ j, m.tables (pgdStart + i * tableSize) j = ptStart

/-- The process in turn touches its first `n` regions. -/
theorem Touched.fill {k : Nat} (h : Touched k m) (hk : k < 4) (s : PoolSystem)
    (hn : n ≤ 512) :
    ∃ m', Reaches step Called { s with kernel := { turn k with mm := m } }
        { s with kernel := { turn (k + 1) with mm := m' } } ∧
      TablesFilled { m with currentPgd := pgdStart + k * tableSize } m' n := by
  have hnext := h.next
  apply yield_fill_reaches (s := { s with kernel := { turn k with mm := m } }) rfl
    (turn_yield hk) _ _ h.freePages h.pageSize _ hn
  · rw [hnext]
    simp only [ptStart, tableSize]
    omega
  · rw [hnext]
    simp only [pgdStart, ptStart, tableSize]
    omega
  · simp only [pgdStart]
    omega
  · intro j _
    rw [h.globalEmptyPt]
    exact h.empty k hk le_rfl j

theorem touched_reaches {k : Nat} (hk : k < 4) :
    ∃ m, Reaches step Called blank { blank with kernel := { turn k with mm := m } } ∧
      Touched k m := by
  induction k with
  | zero =>
    refine ⟨(turn 0).mm, ?_, rfl, rfl, rfl, rfl, fun i hi _ j => ?_⟩
    · have hrun : runIf step Called blank [.kernel ⟨0, .spawn 0⟩, .kernel ⟨0, .spawn 0⟩,
          .kernel ⟨0, .spawn 0⟩, .kernel ⟨0, .spawn 0⟩] =
          some { blank with kernel := turn 0 } := rfl
      exact reaches_of_runIf hrun
    · interval_cases i <;> rfl
  | succ k ih =>
    obtain ⟨m, hreach, htouched⟩ := ih (by omega)
    obtain ⟨m', hreach', hfilled⟩ := htouched.fill (n := 512) (by omega) blank le_rfl
    refine ⟨m', hreach.trans hreach', ?_, hfilled.freePages, hfilled.pageSize, ?_,
      fun i hi hki j => ?_⟩
    · exact hfilled.globalEmptyPt.trans htouched.globalEmptyPt
    · rw [hfilled.next]
      show m.pageCtrlPt.nextPageAddr + _ = _
      rw [htouched.next]
      simp only [tableSize]
      omega
    · rw [hfilled.other]
      · exact htouched.empty i hi (by omega) j
      · show pgdStart + i * tableSize < m.pageCtrlPt.nextPageAddr
        rw [htouched.next]
        simp only [pgdStart, ptStart, tableSize]
        omega
      · show pgdStart + i * tableSize ≠ pgdStart + k * tableSize
        rw [tableSize]
        omega

/-- Four processes touch so many regions that a page table lies on `zero_page`. -/
theorem tables_reach_kernel_pages : ¬ ∀ s, Reaches step Called blank s → ∀ x y, x ≠ y →
    ∀ b c, s.holds x = some b → s.holds y = some c → Apart b x.pool.bytes c y.pool.bytes := by
  intro hall
  obtain ⟨m, hreach, htouched⟩ := touched_reaches (k := 3) (by decide)
  obtain ⟨m', hreach', hfilled⟩ := htouched.fill (n := 384) (by decide) blank (by decide)
  have hentry : m'.tables (pgdStart + 3 * tableSize) 383 = kernelPageStart := by
    have hlast := hfilled.filled 383 (by decide)
    rw [show ({ m with currentPgd := pgdStart + 3 * tableSize } : Memory).pageCtrlPt =
      m.pageCtrlPt from rfl, htouched.next] at hlast
    exact hlast
  have hglobal : m'.globalEmptyPt = ptStart := hfilled.globalEmptyPt.trans htouched.globalEmptyPt
  have htable : holds { blank with kernel := { turn 4 with mm := m' } } (.table 4 383) =
      some kernelPageStart := by
    have hpgd : ((turn 4).pcb 4).pageTable = pgdStart + 3 * tableSize := rfl
    have hlive : (turn 4).toCore.Lives none 4 := by decide
    simp only [holds]
    rw [hpgd, hentry, hglobal]
    exact if_pos ⟨hlive, by decide, by decide⟩
  have hapart := hall _ (hreach.trans hreach') (.table 4 383) .zeroPage (by decide) _ _ htable rfl
  exact absurd hapart (by decide)

end Exhaustion

end PoolSystem

end MipsOs.System
