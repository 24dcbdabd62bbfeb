import MipsOs.Fs.Checkout
import MipsOs.Fs.Layout

/-!
# Mounting, unmounting and formatting

`mount_file_system`, `unmount_file_system` and `init_file_system` of
`fs/fs.c` over the block cache.  The three write `current_partition`, and
none of them touches the 32 buffers, which are keyed by block number only.

A run mixes these calls with `block_get`, writes to the pages it returned,
and `block_commit`.  Next to the code the state keeps what the run has done:
the pages that callers hold, those they changed and did not commit yet, the
partition each buffer was loaded for, and the last content of every block of
every partition.  `Mounted.step_fs` says that the bookkeeping has no effect
on the code.

`Mounted.Fresh` is the condition on one step under which the partitions stay
apart: a reader does not meet a buffer of another partition.
-/

namespace MipsOs.Fs

open MipsOs.Lib MipsOs.Mm

/-- The block layer, `fs_mounted` and `fs_super_block`. -/
structure FileSystem where
  cache : Cache
  fsMounted : Bool
  fsSuperBlock : Nat

/-- `current_partition = part_id; fs_super_block = alloc_page(..)`, with which
`mount_file_system` and `init_file_system` begin. -/
def FileSystem.select (m : FileSystem) (partId : Fin 4) : FileSystem :=
  { m with
    cache :=
      { m.cache with
        currentPartition := partId
        pageCtrlKernel := (allocPage m.cache.pageCtrlKernel).2 }
    fsSuperBlock := (allocPage m.cache.pageCtrlKernel).1 }

/-- The answer is the return value and the new state. -/
def mountFileSystem (m : FileSystem) (partId : Fin 4) : Int × FileSystem :=
  if m.fsMounted then
    (-1, m)
  else
    let m := m.select partId
    let m :=
      { m with
        cache := m.cache.poke m.fsSuperBlock (blockRead m.cache.table m.cache.card partId 1) }
    if pageMagic (m.cache.mem m.fsSuperBlock) ≠ kfsMagic then
      (-1,
        { m with
          cache :=
            { m.cache with
              pageCtrlKernel := freePage m.cache.pageCtrlKernel m.fsSuperBlock } })
    else
      (0, { m with fsMounted := true })

/-- `block_write(fs_super_block, current_partition, 1)` -/
def FileSystem.writeSuperBlock (m : FileSystem) : FileSystem :=
  { m with
    cache :=
      { m.cache with
        card := blockWrite m.cache.table m.cache.card m.cache.currentPartition 1
          (m.cache.mem m.fsSuperBlock) } }

/-- `unmount_file_system` -/
def unmountFileSystem (m : FileSystem) : Int × FileSystem :=
  if !m.fsMounted then
    (-1, m)
  else
    let m := { m with cache := blockSink m.cache }.writeSuperBlock
    (0,
      { m with
        cache :=
          { m.cache with
            pageCtrlKernel := freePage m.cache.pageCtrlKernel m.fsSuperBlock }
        fsMounted := false })

/-- `block_get(block_id, 0)`, fill the page, `block_commit(.., 1)` -/
def Cache.overwrite (c : Cache) (blockId : Nat) (x : Block) : Option Cache := do
  let (page, c) ← blockGet c blockId false
  return blockCommit (c.poke page x) page true

/-- The first part of `init_file_system`: set up the super block and write it
to the card. -/
def FileSystem.setup (m : FileSystem) (partId : Fin 4) : FileSystem :=
  let m := m.select partId
  let sb := setupSuperBlock (m.cache.table partId).sectorNum
  { m with
    cache := m.cache.poke m.fsSuperBlock (sb.store (m.cache.mem m.fsSuperBlock)) }.writeSuperBlock

/-- The return value is left out: the source has none on this path. -/
def initFileSystem (m : FileSystem) (partId : Fin 4) : Option FileSystem :=
  if m.fsMounted then
    some m
  else do
    let m := m.setup partId
    let sb := setupSuperBlock (m.cache.table partId).sectorNum
    let cache ← (setupBlocks sb).foldlM (fun c (b, x) => c.overwrite b x) m.cache
    return { m with cache := cache, fsMounted := true }

/-! ## Runs -/

/-- The code, and what the run has done so far.  `out` are the pages that
callers hold, with their blocks; `changed` are those that were written and
not committed since; `own` is the partition each buffer was loaded for; and
`content` is the last content of every block. -/
structure Mounted where
  fs : FileSystem
  out : List (Nat × Nat)
  changed : Finset Nat
  own : Fin diskBuffSize → Fin 4
  content : Store

/-- A step of a run: the mount calls, and what callers do with pages. -/
inductive MountOp where
  | mount (partId : Fin 4)
  | init (partId : Fin 4)
  | unmount
  | get (blockId : Nat) (doRead : Bool)
  | write (page : Nat) (x : Block)
  | commit (page : Nat) (doWrite : Bool)

namespace Mounted

/-- The checked-out pages. -/
def checkout (s : Mounted) : Checkout := ⟨s.fs.cache, s.out⟩

/-- `block_get`.  A caller that does not read the block is going to replace
its content, so the page it gets counts as the content. -/
def get (s : Mounted) (blockId : Nat) (doRead : Bool) : Option (Nat × Mounted) := do
  let (page, c) ← blockGet s.fs.cache blockId doRead
  return (page,
    { fs := { s.fs with cache := c }
      out := (page, blockId) :: s.out
      changed := s.fs.cache.changedAfterGet s.changed s.own blockId doRead
      own := s.fs.cache.ownAfterGet s.own blockId doRead
      content :=
        if doRead then s.content
        else s.content.set s.fs.cache.currentPartition blockId (c.mem page) })

/-- A caller fills a page that it holds. -/
def write (s : Mounted) (page : Nat) (x : Block) : Option Mounted := do
  let e ← s.out.find? fun e => e.1 = page
  return { s with
    fs := { s.fs with cache := s.fs.cache.poke page x }
    changed := insert page s.changed
    content := s.content.set s.fs.cache.currentPartition e.2 x }

/-- `block_commit` of a page that a caller holds. -/
def commit (s : Mounted) (page : Nat) (doWrite : Bool) : Mounted :=
  { s with
    fs := { s.fs with cache := blockCommit s.fs.cache page doWrite }
    out := s.out.eraseP fun e => e.1 = page
    changed := changedAfterCommit s.changed page doWrite }

/-- One block of `init_file_system`. -/
def overwrite (s : Mounted) (blockId : Nat) (x : Block) : Option Mounted := do
  let (page, s) ← s.get blockId false
  let s ← s.write page x
  return s.commit page true

/-- The super block has been written to the card. -/
def superBlockWritten (s : Mounted) (m : FileSystem) : Mounted :=
  { s with
    fs := m
    content := s.content.set m.cache.currentPartition 1 (m.cache.mem m.fsSuperBlock) }

/-- `init_file_system`, which writes every block of the new file system. -/
def init (s : Mounted) (partId : Fin 4) : Option Mounted :=
  if s.fs.fsMounted then
    some s
  else do
    let s := s.superBlockWritten (s.fs.setup partId)
    let sb := setupSuperBlock (s.fs.cache.table partId).sectorNum
    let s ← (setupBlocks sb).foldlM (fun s (b, x) => s.overwrite b x) s
    return { s with fs := { s.fs with fsMounted := true } }

/-- `unmount_file_system`, which writes the super block. -/
def unmount (s : Mounted) : Mounted :=
  if s.fs.fsMounted then s.superBlockWritten (unmountFileSystem s.fs).2 else s

end Mounted

/-- One step of a run. -/
def mountStep (s : Mounted) : MountOp → Option Mounted
  | .mount p => some { s with fs := (mountFileSystem s.fs p).2 }
  | .init p => s.init p
  | .unmount => some s.unmount
  | .get b doRead => (s.get b doRead).map Prod.snd
  | .write page x => s.write page x
  | .commit page doWrite => some (s.commit page doWrite)

/-- What a step does to the code. -/
def fileSystemStep (m : FileSystem) : MountOp → Option FileSystem
  | .mount p => some (mountFileSystem m p).2
  | .init p => initFileSystem m p
  | .unmount => some (unmountFileSystem m).2
  | .get b doRead => (blockGet m.cache b doRead).map fun r => { m with cache := r.2 }
  | .write page x => some { m with cache := m.cache.poke page x }
  | .commit page doWrite => some { m with cache := blockCommit m.cache page doWrite }

/-- Nothing is mounted at boot. -/
def bootMounted (table : PartitionTable) (card : Card) (mem : Nat → Block)
    (part : Fin 4) : Mounted where
  fs := { cache := bootCache table card mem part, fsMounted := false, fsSuperBlock := 0 }
  out := []
  changed := ∅
  own := fun _ => part
  content := fun p b => blockRead table card p b

/-! ## The bookkeeping has no effect -/

theorem Mounted.overwrite_fs {s s' : Mounted} {b : Nat} {x : Block}
    (h : s.overwrite b x = some s') :
    s.fs.cache.overwrite b x = some s'.fs.cache ∧
      s'.fs = { s.fs with cache := s'.fs.cache } := by
  simp only [Mounted.overwrite, Mounted.get, Mounted.write, Mounted.commit,
    Option.bind_eq_bind, Option.pure_def, Option.bind_eq_some_iff, Option.some.injEq,
    Prod.exists, Prod.mk.injEq] at h
  obtain ⟨page, s₁, ⟨page', c, hget, rfl, rfl⟩, s₂, ⟨p, b', _, rfl⟩, rfl⟩ := h
  exact ⟨by simp [Cache.overwrite, hget], rfl⟩

theorem Mounted.foldlM_overwrite_fs (blocks : List (Nat × Block)) {s s' : Mounted}
    (h : blocks.foldlM (fun s (b, x) => s.overwrite b x) s = some s') :
    blocks.foldlM (fun c (b, x) => c.overwrite b x) s.fs.cache = some s'.fs.cache ∧
      s'.fs = { s.fs with cache := s'.fs.cache } := by
  induction blocks generalizing s with
  | nil =>
    obtain rfl : s = s' := by simpa using h
    exact ⟨rfl, rfl⟩
  | cons e rest ih =>
    simp only [List.foldlM_cons, Option.bind_eq_bind, Option.bind_eq_some_iff] at h ⊢
    obtain ⟨s₁, hfirst, hrest⟩ := h
    obtain ⟨hcache, hfs⟩ := Mounted.overwrite_fs hfirst
    obtain ⟨hcache', hfs'⟩ := ih hrest
    exact ⟨⟨_, hcache, hcache'⟩, by rw [hfs', hfs]⟩

/-- The code part of a step is the code. -/
theorem Mounted.step_fs {s s' : Mounted} {op : MountOp} (h : mountStep s op = some s') :
    fileSystemStep s.fs op = some s'.fs := by
  cases op with
  | mount p =>
    simp only [mountStep, Option.some.injEq] at h
    subst h
    rfl
  | init p =>
    simp only [mountStep, Mounted.init] at h
    simp only [fileSystemStep, initFileSystem]
    split at h
    · rename_i hm
      rw [if_pos hm]
      exact congrArg (Option.map Mounted.fs) h
    · rename_i hm
      rw [if_neg hm]
      simp only [Option.bind_eq_bind, Option.pure_def, Option.bind_eq_some_iff,
        Option.some.injEq] at h ⊢
      obtain ⟨s₁, hfold, rfl⟩ := h
      obtain ⟨hcache, hfs⟩ := Mounted.foldlM_overwrite_fs _ hfold
      exact ⟨_, hcache, by rw [hfs]; rfl⟩
  | unmount =>
    simp only [mountStep, Mounted.unmount, Option.some.injEq] at h
    subst h
    simp only [fileSystemStep, unmountFileSystem]
    cases s.fs.fsMounted <;> rfl
  | get b doRead =>
    simp only [mountStep, Mounted.get, Option.bind_eq_bind, Option.pure_def,
      Option.map_eq_some_iff, Option.bind_eq_some_iff, Option.some.injEq, Prod.exists,
      Prod.mk.injEq] at h
    obtain ⟨_, _, ⟨page, c, hget, rfl, rfl⟩, rfl⟩ := h
    simp [fileSystemStep, hget]
  | write page x =>
    simp only [mountStep, Mounted.write, Option.bind_eq_bind, Option.pure_def,
      Option.bind_eq_some_iff, Option.some.injEq] at h
    obtain ⟨_, _, rfl⟩ := h
    rfl
  | commit page doWrite =>
    simp only [mountStep, Option.some.injEq] at h
    subst h
    rfl

/-! ## When the partitions stay apart -/

/-- The blocks of the partitions. -/
def inPartition (table : PartitionTable) (p : Fin 4) (b : Nat) : Prop :=
  b < partitionBlocks table p

namespace Mounted

/-- What the callers promise: they access blocks of the mounted partition,
hold fewer than 32 buffers, commit what they hold, and the last commit of a
page that was changed says so. -/
def CallerOk (s : Mounted) : MountOp → Prop
  | .get b _ =>
    s.fs.fsMounted = true ∧
      inPartition s.fs.cache.table s.fs.cache.currentPartition b ∧ s.checkout.Bounded
  | .commit page doWrite =>
    page ∈ s.out.map Prod.fst ∧
      (doWrite = false → page ∈ s.changed →
        page ∈ (s.out.eraseP fun e => e.1 = page).map Prod.fst)
  | _ => True

/-- Every buffer that holds `page` was loaded for the mounted partition. -/
def PageMounted (s : Mounted) (page : Nat) : Prop :=
  ∀ i, (s.fs.cache.buff i).page = page → s.own i = s.fs.cache.currentPartition

/-- No buffer holds block `b` of partition `p`. -/
def Uncached (s : Mounted) (p : Fin 4) (b : Nat) : Prop :=
  ∀ i, (s.fs.cache.buff i).page ≠ 0 → s.own i = p → (s.fs.cache.buff i).blockId ≠ b

/-- Selecting partition `p` leaves no change of another partition behind. -/
def Settled (s : Mounted) (p : Fin 4) : Prop :=
  p = s.fs.cache.currentPartition ∨ ∀ i, ¬ s.fs.cache.Pending s.changed i

/-- The loads of `init_file_system` recycle no held buffer. -/
def FormatOk : Mounted → List (Nat × Block) → Prop
  | _, [] => True
  | s, (b, x) :: rest =>
    s.checkout.Bounded ∧ s.checkout.Safe (.get b false) ∧
      match s.overwrite b x with
      | none => True
      | some s' => s'.FormatOk rest

/-- The condition on one step.  A reader does not meet a buffer of another
partition; held pages are not recycled, and not changed after another
partition was selected; nothing is left to be written back when another
partition is selected; and block 1, which is written around the cache, is
not in the cache. -/
def Fresh (s : Mounted) : MountOp → Prop
  | .mount p => s.fs.fsMounted = false → s.Settled p
  | .init p => s.fs.fsMounted = false →
    s.Settled p ∧ s.Uncached p 1 ∧
      inPartition s.fs.cache.table p
        (setupSuperBlock (s.fs.cache.table p).sectorNum).dataStart ∧
      (s.superBlockWritten (s.fs.setup p)).FormatOk
        (setupBlocks (setupSuperBlock (s.fs.cache.table p).sectorNum))
  | .unmount => s.fs.fsMounted = true →
    s.Uncached s.fs.cache.currentPartition 1 ∧
      inPartition s.fs.cache.table s.fs.cache.currentPartition 1
  | .get b doRead =>
    s.checkout.Safe (.get b doRead) ∧
      (doRead = true → ∀ i, s.fs.cache.findBuff b = some i →
        s.own i = s.fs.cache.currentPartition)
  | .write page _ => s.PageMounted page
  | .commit page doWrite => doWrite = true → s.PageMounted page

/-- `block_get(b, 1)` comes back with the last content of the block. -/
def ReadsBack (s : Mounted) (b : Nat) : Prop :=
  ∃ page s', s.get b true = some (page, s') ∧
    s'.fs.cache.mem page = s.content s.fs.cache.currentPartition b

/-- A page that is to be written back belongs to the mounted partition and
holds the content of its block there.  Every other block of every partition
has its content on the card. -/
structure Isolated (s : Mounted) : Prop where
  write_back : ∀ i, (s.fs.cache.buff i).dirty = true →
    s.own i = s.fs.cache.currentPartition ∧
      s.fs.cache.mem (s.fs.cache.buff i).page =
        s.content s.fs.cache.currentPartition (s.fs.cache.buff i).blockId
  on_card : ∀ p b, inPartition s.fs.cache.table p b →
    (∀ i, (s.fs.cache.buff i).page ≠ 0 → s.own i = p → (s.fs.cache.buff i).blockId = b →
      ¬ s.fs.cache.Pending s.changed i) →
    blockRead s.fs.cache.table s.fs.cache.card p b = s.content p b

end Mounted

/-! ## The invariant of the runs -/

/-- The cache is coherent with the content of the blocks, the held pages are
pages of buffers, and a page that was changed is held.  `extra` are the pages
that the kernel pool has handed out to others. -/
structure Accounted (table : PartitionTable) (extra : Finset Nat) (s : Mounted) : Prop where
  table_eq : s.fs.cache.table = table
  coherent : Coherent (inPartition table) extra s.fs.cache s.changed s.own s.content
  checkout : CheckoutInv extra s.checkout
  changed_held : ∀ a ∈ s.changed, a ∈ s.out.map Prod.fst

/-- The pages of the kernel pool that belong to no buffer. -/
def FileSystem.owners (m : FileSystem) : Finset Nat :=
  if m.fsMounted then insert m.fsSuperBlock bootPages else bootPages

/-- The invariant between two steps. -/
structure MountedInv (table : PartitionTable) (s : Mounted) : Prop where
  accounted : Accounted table s.fs.owners s
  super : s.fs.fsMounted = true → s.fs.fsSuperBlock ∉ bootPages

section Invariant

variable {table : PartitionTable} {extra : Finset Nat} {s s' : Mounted}

/-- The accounts do not read `fs_mounted` and `fs_super_block`. -/
theorem Accounted.congr (h : Accounted table extra s) (hcache : s'.fs.cache = s.fs.cache)
    (hout : s'.out = s.out) (hchanged : s'.changed = s.changed) (hown : s'.own = s.own)
    (hcontent : s'.content = s.content) : Accounted table extra s' := by
  refine ⟨?_, ?_, ?_, ?_⟩
  · rw [hcache, h.table_eq]
  · rw [hcache, hchanged, hown, hcontent]
    exact h.coherent
  · rw [Mounted.checkout, hcache, hout]
    exact h.checkout
  · rw [hchanged, hout]
    exact h.changed_held

theorem bootMounted_inv (card : Card) (mem : Nat → Block) (part : Fin 4) :
    MountedInv table (bootMounted table card mem part) where
  accounted :=
    { table_eq := rfl
      coherent := bootCache_coherent table card mem part _
      checkout := bootCheckout_inv table card mem part
      changed_held := fun _ h => absurd h (Finset.notMem_empty _) }
  super := fun h => Bool.noConfusion h

/-- A held page is the page of one buffer, and that buffer holds the block
the page was obtained for. -/
theorem Accounted.buffer (h : Accounted table extra s) {e : Nat × Nat} (he : e ∈ s.out) :
    ∃ i, (s.fs.cache.buff i).page = e.1 ∧ e.1 ≠ 0 ∧ (s.fs.cache.buff i).blockId = e.2 := by
  obtain ⟨hzero, i, hpage, hblock⟩ := h.checkout.designates e he
  exact ⟨i, hpage, hzero, hblock⟩

/-- `block_get` keeps the accounts.  It comes back, and a reader gets the
content of the block. -/
theorem Accounted.get (hsep : SeparateOn table (inPartition table))
    (h : Accounted table extra s) {b : Nat} {doRead : Bool}
    (hb : inPartition table s.fs.cache.currentPartition b) (hbound : s.checkout.Bounded)
    (hsafe : s.checkout.Safe (.get b doRead))
    (hfresh : doRead = true → ∀ i, s.fs.cache.findBuff b = some i →
      s.own i = s.fs.cache.currentPartition) :
    ∃ page s', s.get b doRead = some (page, s') ∧ Accounted table extra s' ∧
      (doRead = true →
        s'.fs.cache.mem page = s.content s.fs.cache.currentPartition b) ∧
      (page, b) ∈ s'.out ∧ s'.PageMounted page ∧
      s'.fs = { s.fs with cache := s'.fs.cache } ∧
      s'.fs.cache.currentPartition = s.fs.cache.currentPartition := by
  obtain ⟨t, ht, hkeep, _⟩ := checkoutStep_spec h.checkout hbound (.get b doRead)
  simp only [checkoutStep, Mounted.checkout, Option.bind_eq_bind, Option.pure_def,
    Option.bind_eq_some_iff, Option.some.injEq, Prod.exists] at ht
  obtain ⟨page, c, hget, rfl⟩ := ht
  have hsep' : SeparateOn s.fs.cache.table (inPartition table) := by rw [h.table_eq]; exact hsep
  obtain ⟨⟨i, hi, hzero, hblock, hown, _⟩, hseen, htable, hpart, hco⟩ :=
    blockGet_coherent hsep' h.coherent hb hfresh (fun v hfind hv hmem =>
      Checkout.victim_not_held hsafe hfind hv (h.changed_held _ hmem)) hget
  have hcontent : (if doRead then s.content
      else s.content.set s.fs.cache.currentPartition b (c.mem page)) =
      s.content.set s.fs.cache.currentPartition b (c.mem page) := by
    cases doRead with
    | false => rfl
    | true =>
      rw [hseen rfl, Store.set_eq_self]
      rfl
  set s₁ : Mounted :=
    { fs := { s.fs with cache := c }
      out := (page, b) :: s.out
      changed := s.fs.cache.changedAfterGet s.changed s.own b doRead
      own := s.fs.cache.ownAfterGet s.own b doRead
      content :=
        if doRead then s.content
        else s.content.set s.fs.cache.currentPartition b (c.mem page) } with hs₁
  have hstep : s.get b doRead = some (page, s₁) := by
    simp only [Mounted.get, hget]
    rfl
  refine ⟨page, s₁, hstep, ⟨?_, ?_, hkeep hsafe, ?_⟩, hseen, List.mem_cons_self .., ?_,
    rfl, hpart⟩
  · exact htable.trans h.table_eq
  · simp only [hs₁, hcontent]
    exact hco
  · intro a ha
    rw [hs₁, List.map_cons, List.mem_cons]
    simp only [hs₁, Cache.changedAfterGet] at ha
    split at ha
    · rename_i j hfind
      split at ha
      · exact Or.inr (h.changed_held a ha)
      · rcases Finset.mem_insert.mp ha with rfl | ha
        · rw [blockGet, hfind] at hget
          simp only [Option.some.injEq, Prod.mk.injEq] at hget
          exact Or.inl hget.1
        · exact Or.inr (h.changed_held a ha)
    · exact Or.inr (h.changed_held a ha)
  · intro j hj
    have hji : j = i := hco.wf.page_inj j i (by rw [hj]; exact hzero) (hj.trans hi)
    subst hji
    exact hown.trans hpart.symm

/-- A caller may fill a page that it holds for the mounted partition. -/
theorem Accounted.write (h : Accounted table extra s) {page : Nat} {x : Block}
    (hmounted : s.PageMounted page) (hwrite : s.write page x = some s') :
    Accounted table extra s' ∧ s'.out = s.out ∧
      s'.fs = { s.fs with cache := s.fs.cache.poke page x } ∧ s'.own = s.own := by
  simp only [Mounted.write, Option.bind_eq_bind, Option.pure_def, Option.bind_eq_some_iff,
    Option.some.injEq] at hwrite
  obtain ⟨e, hfind, rfl⟩ := hwrite
  obtain rfl : e.1 = page := by simpa using List.find?_some hfind
  have he := List.mem_of_find?_eq_some hfind
  obtain ⟨i, hpage, hzero, hblock⟩ := h.buffer he
  have hco := h.coherent.write (i := i) (by rw [hpage]; exact hzero) (hmounted i hpage) x
  rw [hpage, hblock] at hco
  refine ⟨⟨h.table_eq, hco, ?_, ?_⟩, rfl, rfl, rfl⟩
  · exact h.checkout.congr (h.checkout.wf.congr rfl (fun _ => rfl) (fun _ => rfl))
      fun _ => ⟨rfl, rfl, rfl⟩
  · intro a ha
    rcases Finset.mem_insert.mp ha with rfl | ha
    · exact List.mem_map.mpr ⟨e, he, rfl⟩
    · exact h.changed_held a ha

/-- A commit keeps the accounts. -/
theorem Accounted.commit (h : Accounted table extra s) {page : Nat} (doWrite : Bool)
    (hheld : page ∈ s.out.map Prod.fst)
    (hlast : doWrite = false → page ∈ s.changed →
      page ∈ (s.out.eraseP fun e => e.1 = page).map Prod.fst)
    (hmounted : doWrite = true → s.PageMounted page) :
    Accounted table extra (s.commit page doWrite) ∧
      (s.commit page doWrite).fs.cache.currentPartition = s.fs.cache.currentPartition := by
  obtain ⟨e, he, rfl⟩ := List.mem_map.mp hheld
  obtain ⟨i, hpage, hzero, _⟩ := h.buffer he
  obtain ⟨⟨htable, hpart⟩, _, hco⟩ := blockCommit_coherent (i := i) doWrite
    h.coherent (by rw [hpage]; exact hzero) (fun hw => hmounted hw i hpage)
  rw [hpage] at htable hpart hco
  refine ⟨⟨htable.trans h.table_eq, hco, h.checkout.commit e.1 doWrite, ?_⟩, hpart⟩
  intro a ha
  simp only [Mounted.commit] at ha ⊢
  by_cases hae : a = e.1
  · subst hae
    cases doWrite with
    | false => exact hlast rfl ha
    | true =>
      simp [changedAfterCommit] at ha
  · have hin : a ∈ s.changed := by
      unfold changedAfterCommit at ha
      split at ha
      · exact Finset.mem_of_mem_erase ha
      · exact ha
    obtain ⟨d, hd, rfl⟩ := List.mem_map.mp (h.changed_held a hin)
    exact List.mem_map.mpr ⟨d, (List.mem_eraseP_of_neg (by simpa using hae)).mpr hd, rfl⟩

/-- One block of `init_file_system` keeps the accounts. -/
theorem Accounted.overwrite (hsep : SeparateOn table (inPartition table))
    (h : Accounted table extra s) {b : Nat} {x : Block}
    (hb : inPartition table s.fs.cache.currentPartition b) (hbound : s.checkout.Bounded)
    (hsafe : s.checkout.Safe (.get b false)) (hover : s.overwrite b x = some s') :
    Accounted table extra s' ∧
      s'.fs.cache.currentPartition = s.fs.cache.currentPartition := by
  obtain ⟨page, s₁, hget, h₁, _, hin, hmounted, _, hpart⟩ :=
    h.get hsep hb hbound hsafe (fun hfalse => absurd hfalse (by decide))
  simp only [Mounted.overwrite, hget, Option.bind_eq_bind, Option.bind_some, Option.pure_def,
    Option.bind_eq_some_iff, Option.some.injEq] at hover
  obtain ⟨s₂, hwrite, rfl⟩ := hover
  obtain ⟨h₂, hout, hfs, hown⟩ := h₁.write hmounted hwrite
  have hheld : page ∈ s₂.out.map Prod.fst := by
    rw [hout]
    exact List.mem_map.mpr ⟨_, hin, rfl⟩
  have hmounted₂ : s₂.PageMounted page := by
    unfold Mounted.PageMounted
    rw [hfs, hown]
    exact hmounted
  obtain ⟨h₃, hpart₃⟩ := h₂.commit true hheld
    (fun hfalse => absurd hfalse (by decide)) (fun _ => hmounted₂)
  refine ⟨h₃, hpart₃.trans ?_⟩
  rw [hfs]
  exact hpart

/-- The loop over the blocks of `init_file_system` keeps the accounts. -/
theorem Accounted.format (hsep : SeparateOn table (inPartition table))
    {blocks : List (Nat × Block)} (h : Accounted table extra s)
    (hdom : ∀ e ∈ blocks, inPartition table s.fs.cache.currentPartition e.1)
    (hok : s.FormatOk blocks)
    (hfold : blocks.foldlM (fun s (b, x) => s.overwrite b x) s = some s') :
    Accounted table extra s' := by
  induction blocks generalizing s with
  | nil =>
    obtain rfl : s = s' := by simpa using hfold
    exact h
  | cons e rest ih =>
    simp only [List.foldlM_cons, Option.bind_eq_bind, Option.bind_eq_some_iff] at hfold
    obtain ⟨s₁, hfirst, hrest⟩ := hfold
    obtain ⟨hbound, hsafe, hok'⟩ := hok
    rw [hfirst] at hok'
    obtain ⟨h₁, hpart⟩ :=
      h.overwrite hsep (hdom e (List.mem_cons_self ..)) hbound hsafe hfirst
    refine ih h₁ (fun d hd => ?_) hok' hrest
    rw [hpart]
    exact hdom d (List.mem_cons_of_mem _ hd)

/-- The first steps of `mount_file_system` and `init_file_system`: select the
partition, and take a page and fill it. -/
theorem Accounted.select (h : Accounted table extra s) (hcard : extra.card < 8) {p : Fin 4}
    (hsettled : s.Settled p) (x : Block) :
    s.fs.cache.newPage ∉ extra ∧
    Accounted table (insert s.fs.cache.newPage extra)
      { s with
        fs :=
          { s.fs.select p with
            cache := (s.fs.select p).cache.poke s.fs.cache.newPage x } } := by
  obtain ⟨_, hfresh⟩ := h.coherent.wf.newPage_fresh
  have hselected := h.coherent.select hsettled
  have hwf : ((s.fs.select p).cache.poke s.fs.cache.newPage x).Wf
      (insert s.fs.cache.newPage extra) :=
    (hselected.wf.alloc hcard).congr rfl (fun _ => rfl) (fun _ => rfl)
  refine ⟨fun hin => hfresh (Finset.mem_union_left _ hin), h.table_eq, ?_, ?_,
    h.changed_held⟩
  · refine hselected.congr hwf rfl rfl rfl (fun a ha => ?_) fun _ => ⟨rfl, rfl, rfl⟩
    refine Function.update_of_ne ?_ _ _
    rintro rfl
    exact hfresh (Finset.mem_union_right _ ha)
  · exact h.checkout.congr hwf fun _ => ⟨rfl, rfl, rfl⟩

/-- The super block may be written to the card when block 1 is not in the
cache. -/
theorem Accounted.writeSuperBlock (hsep : SeparateOn table (inPartition table))
    (h : Accounted table extra s)
    (hdom : inPartition table s.fs.cache.currentPartition 1)
    (huncached : s.Uncached s.fs.cache.currentPartition 1) :
    Accounted table extra (s.superBlockWritten s.fs.writeSuperBlock) := by
  have hsep' : SeparateOn s.fs.cache.table (inPartition table) := by
    rw [h.table_eq]
    exact hsep
  have hco := h.coherent.blockWrite hsep' hdom huncached (s.fs.cache.mem s.fs.fsSuperBlock)
  have hcheckout := h.checkout.congr hco.wf fun _ => ⟨rfl, rfl, rfl⟩
  refine ⟨?_, ?_, ?_, ?_⟩ <;>
    simp only [Mounted.superBlockWritten, Mounted.checkout, FileSystem.writeSuperBlock]
  · exact h.table_eq
  · exact hco
  · exact hcheckout
  · exact h.changed_held

/-- The first part of `init_file_system` keeps the accounts. -/
theorem Accounted.setup (hsep : SeparateOn table (inPartition table))
    (h : Accounted table extra s) (hcard : extra.card < 8) {p : Fin 4}
    (hsettled : s.Settled p) (huncached : s.Uncached p 1) (hdom : inPartition table p 1) :
    s.fs.cache.newPage ∉ extra ∧
    Accounted table (insert s.fs.cache.newPage extra) (s.superBlockWritten (s.fs.setup p)) ∧
    (s.fs.setup p).fsSuperBlock = s.fs.cache.newPage ∧
    (s.fs.setup p).cache.currentPartition = p ∧
    (s.fs.setup p).cache.table = s.fs.cache.table := by
  obtain ⟨hnew, hsel⟩ := h.select hcard hsettled
    ((setupSuperBlock (s.fs.cache.table p).sectorNum).store
      (s.fs.cache.mem s.fs.cache.newPage))
  have hwritten := hsel.writeSuperBlock hsep hdom huncached
  refine ⟨hnew, hwritten.congr ?_ ?_ ?_ ?_ ?_, ?_, ?_, ?_⟩ <;>
    simp only [Mounted.superBlockWritten, FileSystem.setup, FileSystem.writeSuperBlock,
      FileSystem.select, Cache.newPage, Cache.poke]

/-- The super block's page goes back to the pool. -/
theorem Accounted.free (h : Accounted table extra s) {a : Nat} (ha : a ∈ extra) :
    Accounted table (extra.erase a)
      { s with
        fs :=
          { s.fs with
            cache :=
              { s.fs.cache with pageCtrlKernel := freePage s.fs.cache.pageCtrlKernel a } } } where
  table_eq := h.table_eq
  coherent :=
    h.coherent.congr (h.coherent.wf.free ha) rfl rfl rfl (fun _ _ => rfl)
      fun _ => ⟨rfl, rfl, rfl⟩
  checkout := h.checkout.congr (h.coherent.wf.free ha) fun _ => ⟨rfl, rfl, rfl⟩
  changed_held := h.changed_held

/-- A flush keeps the accounts. -/
theorem Accounted.sink (hsep : SeparateOn table (inPartition table))
    (h : Accounted table extra s) :
    Accounted table extra { s with fs := { s.fs with cache := blockSink s.fs.cache } } := by
  obtain ⟨_, htable, _, hbuff⟩ := blockSink_frame s.fs.cache
  exact
    { table_eq := htable.trans h.table_eq
      coherent := blockSink_coherent (by rw [h.table_eq]; exact hsep) h.coherent
      checkout := h.checkout.congr (blockSink_wf h.checkout.wf)
        fun i => by rw [hbuff]; exact ⟨rfl, rfl, rfl⟩
      changed_held := h.changed_held }

end Invariant

/-! ## The steps keep the invariant -/

/-- The blocks of a new file system lie at or below its root directory, and
above the super block. -/
theorem setupBlocks_le {sectorNum : Nat} {e : Nat × Block}
    (he : e ∈ setupBlocks (setupSuperBlock sectorNum)) :
    1 < e.1 ∧ e.1 ≤ (setupSuperBlock sectorNum).dataStart := by
  simp only [setupBlocks, List.mem_append, List.mem_cons, List.mem_map, List.mem_range'_1,
    List.not_mem_nil, or_false] at he
  have hinode := setupSuperBlock_inodeStart sectorNum
  have hdata := setupSuperBlock_dataStart sectorNum
  rcases he with ((rfl | rfl) | ⟨i, hi, rfl⟩) | (rfl | rfl) <;>
    simp only [setupSuperBlock_inodeBitmapStart, setupSuperBlock_blockBitmapStart] <;> omega

section Steps

variable {table : PartitionTable} {s s' : Mounted}

theorem bootPages_card : bootPages.card < 8 := by decide

theorem MountedInv.mount (h : MountedInv table s) {p : Fin 4} (hfresh : s.Fresh (.mount p)) :
    MountedInv table { s with fs := (mountFileSystem s.fs p).2 } := by
  unfold mountFileSystem
  cases hm : s.fs.fsMounted with
  | true =>
    rw [if_pos rfl]
    exact h
  | false =>
    rw [if_neg (by decide)]
    have hacc := h.accounted
    rw [FileSystem.owners, if_neg (by rw [hm]; decide)] at hacc
    obtain ⟨hnew, hsel⟩ := hacc.select bootPages_card (hfresh hm)
      (blockRead (s.fs.select p).cache.table (s.fs.select p).cache.card p 1)
    simp only
    split
    · refine ⟨?_, fun hmounted => ?_⟩
      · have hfree := hsel.free (Finset.mem_insert_self _ _)
        rw [Finset.erase_insert hnew] at hfree
        rw [FileSystem.owners, if_neg]
        · exact hfree
        · simp [FileSystem.select, hm]
      · simp [FileSystem.select, hm] at hmounted
    · refine ⟨?_, fun _ => hnew⟩
      rw [FileSystem.owners, if_pos rfl]
      exact hsel.congr rfl rfl rfl rfl rfl

theorem MountedInv.init (hsep : SeparateOn table (inPartition table))
    (h : MountedInv table s) {p : Fin 4} (hfresh : s.Fresh (.init p))
    (hinit : s.init p = some s') : MountedInv table s' := by
  unfold Mounted.init at hinit
  cases hm : s.fs.fsMounted with
  | true =>
    rw [if_pos hm] at hinit
    obtain rfl : s = s' := by simpa using hinit
    exact h
  | false =>
    rw [if_neg (by rw [hm]; decide)] at hinit
    simp only [Option.bind_eq_bind, Option.pure_def, Option.bind_eq_some_iff,
      Option.some.injEq] at hinit
    obtain ⟨s₂, hfold, rfl⟩ := hinit
    obtain ⟨hsettled, huncached, hroom, hok⟩ := hfresh hm
    have hacc := h.accounted
    rw [FileSystem.owners, if_neg (by rw [hm]; decide)] at hacc
    have htable := hacc.table_eq
    have hdata := setupSuperBlock_dataStart (s.fs.cache.table p).sectorNum
    rw [htable] at hroom hok hdata
    have hone : inPartition table p 1 := by
      unfold inPartition at hroom ⊢
      omega
    obtain ⟨hnew, hsetup, hsuper, hpart, htable'⟩ :=
      hacc.setup hsep bootPages_card hsettled huncached hone
    have hcur : (s.superBlockWritten (s.fs.setup p)).fs.cache.currentPartition = p := hpart
    have htab : (s.superBlockWritten (s.fs.setup p)).fs.cache.table = table :=
      htable'.trans htable
    rw [htab] at hfold
    have hformat := hsetup.format hsep (fun e he => ?_) hok hfold
    · have hsuper' : s₂.fs.fsSuperBlock = s.fs.cache.newPage := by
        rw [(Mounted.foldlM_overwrite_fs _ hfold).2]
        exact hsuper
      refine ⟨?_, fun _ => ?_⟩
      · rw [FileSystem.owners, if_pos rfl, hsuper']
        exact hformat.congr rfl rfl rfl rfl rfl
      · rw [hsuper']
        exact hnew
    · have hle := (setupBlocks_le he).2
      rw [hcur]
      unfold inPartition at hroom ⊢
      exact lt_of_le_of_lt hle hroom

theorem MountedInv.unmount (hsep : SeparateOn table (inPartition table))
    (h : MountedInv table s) (hfresh : s.Fresh .unmount) : MountedInv table s.unmount := by
  unfold Mounted.unmount
  cases hm : s.fs.fsMounted with
  | false =>
    rw [if_neg (by decide)]
    exact h
  | true =>
    rw [if_pos rfl]
    obtain ⟨huncached, hdom⟩ := hfresh hm
    have hacc := h.accounted
    rw [FileSystem.owners, if_pos hm] at hacc
    rw [hacc.table_eq] at hdom
    obtain ⟨_, _, hpart, hbuff⟩ := blockSink_frame s.fs.cache
    have hwritten := (hacc.sink hsep).writeSuperBlock hsep (by rw [hpart]; exact hdom) (by
      intro i hi hown
      rw [hpart] at hown
      rw [hbuff] at hi ⊢
      exact huncached i hi hown)
    have hfree := hwritten.free (Finset.mem_insert_self _ _)
    rw [Finset.erase_insert (h.super hm)] at hfree
    refine ⟨?_, fun hmounted => ?_⟩
    · rw [FileSystem.owners, if_neg (by
        simp [unmountFileSystem, hm, Mounted.superBlockWritten])]
      refine hfree.congr ?_ ?_ ?_ ?_ ?_ <;>
        simp [unmountFileSystem, hm, Mounted.superBlockWritten, FileSystem.writeSuperBlock]
    · simp [unmountFileSystem, hm, Mounted.superBlockWritten] at hmounted

/-- One step keeps the invariant. -/
theorem mountStep_inv (hsep : SeparateOn table (inPartition table))
    (h : MountedInv table s) {op : MountOp} (hcaller : s.CallerOk op) (hfresh : s.Fresh op)
    (hstep : mountStep s op = some s') : MountedInv table s' := by
  cases op with
  | mount p =>
    obtain rfl : _ = s' := by simpa [mountStep] using hstep
    exact h.mount hfresh
  | init p => exact h.init hsep hfresh hstep
  | unmount =>
    obtain rfl : s.unmount = s' := by simpa [mountStep] using hstep
    exact h.unmount hsep hfresh
  | get b doRead =>
    obtain ⟨_, hb, hbound⟩ := hcaller
    rw [h.accounted.table_eq] at hb
    obtain ⟨page, s₁, hget, hacc, _, _, _, hfs, _⟩ :=
      h.accounted.get hsep hb hbound hfresh.1 hfresh.2
    obtain rfl : s₁ = s' := by simpa [mountStep, hget] using hstep
    refine ⟨?_, ?_⟩ <;> rw [hfs]
    · exact hacc
    · exact h.super
  | write page x =>
    obtain ⟨hacc, _, hfs, _⟩ := h.accounted.write hfresh hstep
    refine ⟨?_, ?_⟩ <;> rw [hfs]
    · exact hacc
    · exact h.super
  | commit page doWrite =>
    obtain rfl : s.commit page doWrite = s' := by simpa [mountStep] using hstep
    exact ⟨(h.accounted.commit doWrite hcaller.1 hcaller.2 hfresh).1, h.super⟩

theorem MountedInv.isolated (h : MountedInv table s) : s.Isolated := by
  have hco := h.accounted.coherent
  refine ⟨fun i hi => ?_, ?_⟩
  · have hown := hco.mounted i (Or.inl hi)
    have hpage : (s.fs.cache.buff i).page ≠ 0 :=
      fun hzero => hco.not_pending_of_empty hzero (Or.inl hi)
    exact ⟨hown, by rw [hco.content i hpage, hown]⟩
  · rw [h.accounted.table_eq]
    intro p b hb hclean
    have := hco.clean p b hb hclean
    rw [h.accounted.table_eq] at this
    exact this

end Steps

/-- In every run whose steps are fresh the partitions stay apart, and every
fresh `block_get(b, 1)` comes back with the last content of the block. -/
theorem mounts_isolated (table : PartitionTable)
    (hsep : SeparateOn table (inPartition table)) (card : Card) (mem : Nat → Block)
    (part : Fin 4) {s : Mounted}
    (h : Reaches mountStep (fun s op => s.CallerOk op ∧ s.Fresh op)
      (bootMounted table card mem part) s) :
    s.Isolated ∧ ∀ b, s.CallerOk (.get b true) → s.Fresh (.get b true) → s.ReadsBack b := by
  have hinv : MountedInv table s := by
    refine h.invariant _ (bootMounted_inv card mem part) ?_
    rintro a op b ha ⟨hcaller, hfresh⟩ hstep
    exact mountStep_inv hsep ha hcaller hfresh hstep
  refine ⟨hinv.isolated, ?_⟩
  rintro b ⟨_, hb, hbound⟩ hfresh
  rw [hinv.accounted.table_eq] at hb
  obtain ⟨page, s', hget, _, hread, _⟩ :=
    hinv.accounted.get hsep hb hbound hfresh.1 hfresh.2
  exact ⟨page, s', hget, hread rfl⟩

/-! ## Runs over a blank card -/

namespace Mounted

variable (s : Mounted)

instance (p : Fin 4) (b : Nat) (t : PartitionTable) : Decidable (inPartition t p b) :=
  inferInstanceAs (Decidable (_ < _))

instance (op : MountOp) : Decidable (s.CallerOk op) :=
  match op with
  | .mount _ | .init _ | .unmount | .write _ _ => isTrue trivial
  | .get b _ =>
    inferInstanceAs (Decidable (s.fs.fsMounted = true ∧
      inPartition s.fs.cache.table s.fs.cache.currentPartition b ∧ s.checkout.Bounded))
  | .commit page doWrite =>
    inferInstanceAs (Decidable (page ∈ s.out.map Prod.fst ∧
      (doWrite = false → page ∈ s.changed →
        page ∈ (s.out.eraseP fun e => e.1 = page).map Prod.fst)))

instance (page : Nat) : Decidable (s.PageMounted page) :=
  inferInstanceAs (Decidable (∀ _, _ → _))

instance (p : Fin 4) (b : Nat) : Decidable (s.Uncached p b) :=
  inferInstanceAs (Decidable (∀ _, _ → _ → ¬ _))

instance (c : Cache) (changed : Finset Nat) (i : Fin diskBuffSize) :
    Decidable (c.Pending changed i) :=
  inferInstanceAs (Decidable (_ ∨ _))

instance (p : Fin 4) : Decidable (s.Settled p) :=
  inferInstanceAs (Decidable (_ ∨ ∀ i, ¬ s.fs.cache.Pending s.changed i))

instance decidableFormatOk :
    ∀ (s : Mounted) (blocks : List (Nat × Block)), Decidable (s.FormatOk blocks)
  | _, [] => isTrue trivial
  | s, (b, x) :: rest =>
    match h : s.overwrite b x with
    | none => decidable_of_iff (s.checkout.Bounded ∧ s.checkout.Safe (.get b false))
        (by simp [FormatOk, h])
    | some s' =>
      have := decidableFormatOk s' rest
      decidable_of_iff
        (s.checkout.Bounded ∧ s.checkout.Safe (.get b false) ∧ s'.FormatOk rest)
        (by simp [FormatOk, h])

instance (op : MountOp) : Decidable (s.Fresh op) :=
  match op with
  | .mount p => inferInstanceAs (Decidable (s.fs.fsMounted = false → s.Settled p))
  | .init p =>
    inferInstanceAs (Decidable (s.fs.fsMounted = false → s.Settled p ∧ s.Uncached p 1 ∧
      inPartition s.fs.cache.table p
        (setupSuperBlock (s.fs.cache.table p).sectorNum).dataStart ∧
      (s.superBlockWritten (s.fs.setup p)).FormatOk
        (setupBlocks (setupSuperBlock (s.fs.cache.table p).sectorNum))))
  | .unmount =>
    inferInstanceAs (Decidable (s.fs.fsMounted = true →
      s.Uncached s.fs.cache.currentPartition 1 ∧
        inPartition s.fs.cache.table s.fs.cache.currentPartition 1))
  | .get b doRead =>
    inferInstanceAs (Decidable (s.checkout.Safe (.get b doRead) ∧
      (doRead = true → ∀ i, s.fs.cache.findBuff b = some i →
        s.own i = s.fs.cache.currentPartition)))
  | .write page _ => inferInstanceAs (Decidable (s.PageMounted page))
  | .commit page doWrite =>
    inferInstanceAs (Decidable (doWrite = true → s.PageMounted page))

end Mounted

/-- Four partitions of 1024 blocks, one after another. -/
def blankTable : PartitionTable := fun p => { startLba := 8192 * p, sectorNum := 8192 }

/-- Boot over a card of zeros. -/
def blankMounted : Mounted := bootMounted blankTable (fun _ => 0) (fun _ _ => 0) 0

theorem blankTable_separate : SeparateOn blankTable (inPartition blankTable) := by
  intro p b q c hb hc hne
  have hp := p.isLt
  have hq := q.isLt
  refine separate_of_apart hb hc ?_ ?_ (fun hpq => ?_) hne
  · simp only [blankTable]
    omega
  · simp only [blankTable]
    omega
  · have hval : (p : Nat) ≠ q := fun h => hpq (Fin.ext h)
    simp only [blankTable]
    omega

/-- Two partitions are formatted one after the other, and a block of the
second is read. -/
theorem blank_mounts_isolated :
    ∃ s, runIf mountStep (fun s op => s.CallerOk op ∧ s.Fresh op) blankMounted
        [.init 0, .get 700 true, .unmount, .init 1] = some s ∧
      s.fs.cache.currentPartition = 1 ∧ s.Isolated ∧ s.ReadsBack 600 := by
  have hrun : ((runIf mountStep (fun s op => s.CallerOk op ∧ s.Fresh op) blankMounted
      [.init 0, .get 700 true, .unmount, .init 1]).map fun s =>
        decide (s.fs.cache.currentPartition = 1 ∧ s.CallerOk (.get 600 true) ∧
          s.Fresh (.get 600 true))) = some true := by
    decide +kernel
  obtain ⟨s, hs, hok⟩ := Option.map_eq_some_iff.mp hrun
  obtain ⟨hpart, hcaller, hfresh⟩ := of_decide_eq_true hok
  obtain ⟨hisolated, hreads⟩ := mounts_isolated blankTable blankTable_separate
    (fun _ => 0) (fun _ _ => 0) 0 (reaches_of_runIf hs)
  exact ⟨s, hs, hpart, hisolated, hreads 600 hcaller hfresh⟩

/-- Block 600 of the first partition is filled, and then the second partition
is formatted. -/
def staleMount : List MountOp :=
  [.init 0, .get 600 true, .write (kernelPageStart + 7 * blockSize) fun _ => 1,
    .commit (kernelPageStart + 7 * blockSize) true, .unmount, .init 1]

/-- After `staleMount` a reader of block 600 of the second partition gets
block 600 of the first. -/
theorem staleMount_not_isolated :
    ¬ ∀ s, Reaches mountStep (fun s op => s.CallerOk op) blankMounted s →
      ∀ b, s.CallerOk (.get b true) → s.ReadsBack b := by
  intro h
  have hrun : ((runIf mountStep (fun s op => s.CallerOk op) blankMounted staleMount).map
      fun s => decide (s.CallerOk (.get 600 true) ∧
        (s.get 600 true).map (fun r => r.2.fs.cache.mem r.1 0) = some 1 ∧
        s.content s.fs.cache.currentPartition 600 0 = 0)) = some true := by
    decide +kernel
  obtain ⟨s, hs, hok⟩ := Option.map_eq_some_iff.mp hrun
  obtain ⟨hcaller, hget, hzero⟩ := of_decide_eq_true hok
  obtain ⟨page, s', hstep, hread⟩ := h s (reaches_of_runIf hs) 600 hcaller
  rw [hstep, Option.map_some, Option.some.injEq, hread, hzero] at hget
  exact absurd hget (by decide)

end MipsOs.Fs
