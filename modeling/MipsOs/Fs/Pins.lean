import MipsOs.Fs.Mount
import MipsOs.Fs.PathWalk

/-!
# Pages that stay pinned

Runs of complete file-system calls over the block cache.  A call that returns
has committed every page it got, unless it leaves the loop over a path by a
`break` or finds the name that it was to create: these exits skip the calls of
`block_commit`.
-/

namespace MipsOs.Fs

open MipsOs.Lib MipsOs.Lib.BlockProg MipsOs.Mm

/-- Run a program over the cache.  There is no answer when a search for a
buffer goes round for ever. -/
def runProg {α : Type} : Prog α → Cache → Option (α × Cache)
  | .done a, c => some (a, c)
  | .get b r next, c => (blockGet c b r).bind fun e => runProg (next e.1) e.2
  | .load page next, c => runProg (next (c.mem page)) c
  | .store page x next, c => runProg next (c.poke page x)
  | .commit page w next, c => runProg next (blockCommit c page w)

/-! ## The pages that are held -/

/-- The cache is well formed, and a buffer is marked in use only while its
page is held. -/
structure Pinned (extra : Finset Nat) (held : List Nat) (c : Cache) : Prop where
  wf : c.Wf extra
  ne_zero : ∀ page ∈ held, page ≠ 0
  used_held : ∀ i, (c.buff i).inUse = true → (c.buff i).page ∈ held

section Pinned

variable {extra : Finset Nat} {held : List Nat} {c : Cache}

theorem Pinned.idle (h : Pinned extra [] c) : c.Idle := by
  intro i
  by_contra hi
  exact absurd (h.used_held i (by simpa using hi)) (List.not_mem_nil)

theorem Cache.Idle.pinned (hidle : c.Idle) (hwf : c.Wf extra) : Pinned extra [] c where
  wf := hwf
  ne_zero := by simp
  used_held i hi := by
    rw [hidle i] at hi
    cases hi

/-- The invariant reads the pool and the buffers. -/
theorem Pinned.congr {extra' : Finset Nat} {c' : Cache} (h : Pinned extra held c)
    (hwf : c'.Wf extra') (hbuff : c'.buff = c.buff) : Pinned extra' held c' where
  wf := hwf
  ne_zero := h.ne_zero
  used_held i hi := by
    rw [hbuff] at hi ⊢
    exact h.used_held i hi

/-- With fewer than 32 pages held, some buffer is not in use. -/
theorem Pinned.exists_free (h : Pinned extra held c) (hlen : held.length < diskBuffSize) :
    ∃ i, (c.buff i).inUse = false := by
  by_contra hall
  have hused : ∀ i, (c.buff i).page ∈ held := by
    intro i
    apply h.used_held
    by_contra hi
    exact hall ⟨i, by simpa using hi⟩
  have hinj : Function.Injective fun i => (c.buff i).page :=
    fun i j hij => h.wf.page_inj i j (h.ne_zero _ (hused i)) hij
  have hcard : diskBuffSize ≤ held.toFinset.card := by
    calc diskBuffSize
        = (Finset.univ.image fun i => (c.buff i).page).card := by
          rw [Finset.card_image_of_injective _ hinj, Finset.card_univ, Fintype.card_fin]
      _ ≤ held.toFinset.card := by
          apply Finset.card_le_card
          intro a ha
          obtain ⟨i, _, rfl⟩ := Finset.mem_image.mp ha
          exact List.mem_toFinset.mpr (hused i)
  have := held.toFinset_card_le
  omega

/-- A page is got, and it is held from then on. -/
theorem Pinned.get (h : Pinned extra held c) (hlen : held.length < diskBuffSize) (b : Nat)
    (r : Bool) :
    ∃ page c', blockGet c b r = some (page, c') ∧ Pinned extra (page :: held) c' := by
  cases hfind : c.findBuff b with
  | some i =>
    refine ⟨_, _, by rw [blockGet, hfind], h.wf.setFlags i true (c.buff i).dirty, ?_, ?_⟩
    · intro page hpage
      rcases List.mem_cons.mp hpage with rfl | hpage
      · exact (Cache.findBuff_eq_some hfind).2
      · exact h.ne_zero page hpage
    · intro j hj
      rcases eq_or_ne j i with rfl | hne
      · simp
      · rw [Cache.setBuff_buff_of_ne _ hne] at hj ⊢
        exact List.mem_cons_of_mem _ (h.used_held j hj)
  | none =>
    obtain ⟨i, hi⟩ := h.exists_free hlen
    obtain ⟨v, hv⟩ := Cache.exists_victim hi
    have hwf := h.wf.evict v
    refine ⟨(c.evict v).newPage, (c.evict v).load v b r, ?_,
      hwf.load (Cache.evict_page_self c v) (Cache.blockId_ne_evict hfind) r, ?_, ?_⟩
    · rw [blockGet, hfind]
      simp [hv, Cache.load_buff_self]
    · intro page hpage
      rcases List.mem_cons.mp hpage with rfl | hpage
      · exact hwf.newPage_fresh.1
      · exact h.ne_zero page hpage
    · intro j hj
      have hne : j ≠ v := by
        rintro rfl
        rw [Cache.load_inUse, Cache.evict_inUse, Cache.victimFrom_inUse hv] at hj
        cases hj
      rw [Cache.load_buff_of_ne _ b r hne, Cache.evict_buff_of_ne _ hne] at hj ⊢
      exact List.mem_cons_of_mem _ (h.used_held j hj)

theorem Pinned.poke (h : Pinned extra held c) (page : Nat) (x : Block) :
    Pinned extra held (c.poke page x) :=
  h.congr (h.wf.congr rfl (fun _ => rfl) fun _ => rfl) rfl

/-- A commit gives up the page once. -/
theorem Pinned.commit (h : Pinned extra held c) (page : Nat) (w : Bool) :
    Pinned extra (held.erase page) (blockCommit c page w) := by
  have hframe := blockCommit_frame c page w
  refine ⟨blockCommit_wf h.wf page w, fun p hp => h.ne_zero p (List.mem_of_mem_erase hp), ?_⟩
  intro i hi
  have hmem := h.used_held i ((hframe i).2.2 hi)
  rw [(hframe i).1]
  apply (List.mem_erase_of_ne ?_).mpr hmem
  intro hpage
  have hinj : ∀ j, (c.buff j).page = (c.buff i).page → j = i := by
    intro j hj
    exact (h.wf.page_inj i j (h.ne_zero _ hmem) hj.symm).symm
  rw [← hpage, blockCommit_eq hinj] at hi
  simp at hi

/-- A program that never holds 32 pages comes back, and it holds what `Pins`
says. -/
theorem Pinned.run {α : Type} {p : Prog α} {Q : α → List Nat → Prop}
    (h : Pinned extra held c) (hp : p.Pins diskBuffSize held Q) :
    ∃ a c' held', runProg p c = some (a, c') ∧ Pinned extra held' c' ∧ Q a held' := by
  induction p generalizing held c with
  | done a => exact ⟨a, c, held, rfl, h, hp⟩
  | get b r next ih =>
    obtain ⟨page, c₁, hget, hpinned⟩ := h.get hp.1 b r
    obtain ⟨a, c₂, held', hrun, hend⟩ := ih page hpinned (hp.2 page)
    refine ⟨a, c₂, held', ?_, hend⟩
    rw [runProg, hget]
    exact hrun
  | load page next ih => exact ih _ h (hp _)
  | store page x next ih => exact ih (h.poke page x) hp
  | commit page w next ih => exact ih (h.commit page w) hp

end Pinned

/-! ## What the calls hold -/

section Calls

variable {sb : SuperBlock} {undef limit : Nat} {held : List Nat}

theorem allocInode_balanced : (allocInode sb undef).Balanced 1 := by
  apply balanced_get _ (by omega)
  intro page limit held Q _ hQ
  simp only [pins_bind, pins_read, pins_write, pins_blockCommit, pins_pure,
    List.erase_cons_head]
  exact fun _ => hQ _

theorem nextBitmap_pins (i bitmapBlockId page : Nat) {Q : Nat × Nat → List Nat → Prop}
    (hlen : held.length < limit) (hQ : ∀ id page, Q (id, page) (page :: held)) :
    (nextBitmap sb i bitmapBlockId page).Pins limit (page :: held) Q := by
  unfold nextBitmap
  split
  · simp only [pins_bind, pins_blockCommit, pins_blockGet, pins_pure, List.erase_cons_head]
    exact ⟨hlen, fun page => hQ _ page⟩
  · exact hQ _ page

/-- The scan of the block bitmap holds one page, not always the same one. -/
theorem allocFrom_pins (n i bitmapBlockId page : Nat) {Q : Nat × Option Nat → List Nat → Prop}
    (hlen : held.length < limit) (hQ : ∀ page r, Q (page, r) (page :: held)) :
    (allocFrom sb n i bitmapBlockId page).Pins limit (page :: held) Q := by
  induction n generalizing i bitmapBlockId page with
  | zero => exact hQ page none
  | succ n ih =>
    rw [allocFrom, pins_bind]
    apply nextBitmap_pins _ _ _ hlen
    intro id page
    rw [pins_bind, pins_read]
    intro bitmap
    split
    · exact ih (i + 1) id page
    · exact hQ page (some i)

theorem allocDataBlock_balanced : (allocDataBlock sb undef).Balanced 1 := by
  apply balanced_get _ (by omega)
  intro page limit held Q hlen hQ
  rw [pins_bind]
  apply allocFrom_pins _ _ _ _ (by omega)
  intro page r
  simp only [pins_bind, pins_blockCommit, pins_pure, List.erase_cons_head]
  exact hQ _

theorem doLs_balanced (inodeId : Nat) : (doLs sb inodeId).Balanced 2 := by
  apply balanced_get _ (by omega)
  intro inodeBlock limit held Q hlen hQ
  simp only [pins_bind, pins_read, pins_blockGet, pins_blockCommit, pins_pure, List.length_cons]
  intro _
  refine ⟨by omega, fun dirBlock dir => ?_⟩
  rw [List.erase_comm, List.erase_cons_head, List.erase_cons_head]
  exact hQ _

/-- A walk holds at most two pages at its end, and none when it gets to the
end of the path without a `break`. -/
theorem walkFrom_pins (n : Nat) (rest : List UInt8) (w : Walk)
    {Q : Walk → List Nat → Prop} (hlen : held.length + 2 ≤ limit)
    (hQ : ∀ w l, l.length ≤ held.length + 2 →
      (w.error = false → w.isEnd = false → l = held) → Q w l) :
    (walkFrom sb n rest w).Pins limit held Q := by
  induction n generalizing rest w with
  | zero => exact hQ w held (by omega) fun _ _ => rfl
  | succ n ih =>
    rw [walkFrom]
    split
    · exact hQ w held (by omega) fun _ _ => rfl
    · simp only [pins_bind, pins_blockGet, pins_read]
      refine ⟨by omega, fun inodeBlock x => ?_⟩
      split
      · exact hQ _ _ (by simp) fun herror => absurd herror (by simp)
      · simp only [pins_bind, pins_blockGet, pins_read, List.length_cons]
        refine ⟨by omega, fun dirBlock dir => ?_⟩
        split
        · rename_i hbreak
          apply hQ _ _ (by simp)
          intro herror hend
          rcases hbreak with h | h <;> simp_all
        · simp only [pins_bind, pins_blockCommit]
          rw [List.erase_comm, List.erase_cons_head, List.erase_cons_head]
          exact ih _ _

theorem walk_pins (curDirInode : Int) (path : CString) {Q : Walk → List Nat → Prop}
    (hlen : held.length + 2 ≤ limit)
    (hQ : ∀ w l, l.length ≤ held.length + 2 →
      (w.error = false → w.isEnd = false → l = held) → Q w l) :
    (walk sb curDirInode path).Pins limit held Q :=
  walkFrom_pins _ _ _ hlen hQ

/-- The test that the inode is a directory. -/
theorem checkDir_balanced (inodeId : Int) : (checkDir sb inodeId).Balanced 1 := by
  apply balanced_get _ (by omega)
  intro page limit held Q _ hQ
  simp only [pins_bind, pins_read, pins_blockCommit, pins_pure, List.erase_cons_head]
  exact fun _ => hQ _

/-- The search of the parent holds two pages at its end. -/
theorem searchSlot_pins (faInodeId : Nat) (name : CString) {Q : Slot → List Nat → Prop}
    (hlen : held.length + 2 ≤ limit)
    (hQ : ∀ slot, Q slot (slot.faDirBlock :: slot.faInodeBlock :: held)) :
    (searchSlot sb faInodeId name).Pins limit held Q := by
  simp only [searchSlot, pins_bind, pins_blockGet, pins_read, pins_pure, List.length_cons]
  refine ⟨by omega, fun faInodeBlock _ => ⟨by omega, fun faDirBlock _ => ?_⟩⟩
  exact hQ _

theorem addEntry_pins (faDirBlock dirI : Nat) (name : CString) {Q : Nat → List Nat → Prop}
    (hlen : held.length + 2 ≤ limit) (hQ : ∀ inodeId, Q inodeId held) :
    (addEntry sb undef faDirBlock dirI name).Pins limit (faDirBlock :: held) Q := by
  rw [addEntry, pins_bind]
  apply allocInode_balanced.pins (by simp only [List.length_cons]; omega)
  intro inodeId
  simp only [pins_bind, pins_read, pins_write, pins_blockCommit, pins_pure,
    List.erase_cons_head]
  exact fun _ => hQ inodeId

theorem makeDir_pins (faInodeId : Nat) (name : CString) (slot : Slot) (dirI : Nat)
    {Q : Unit → List Nat → Prop} (hlen : held.length + 3 ≤ limit) (hQ : Q () held) :
    (makeDir sb undef faInodeId name slot dirI).Pins limit
      (slot.faDirBlock :: slot.faInodeBlock :: held) Q := by
  rw [makeDir, pins_bind]
  apply addEntry_pins _ _ _ (by simp only [List.length_cons]; omega)
  intro inodeId
  simp only [pins_bind, pins_blockCommit, pins_blockGet, pins_read, pins_write,
    List.erase_cons_head]
  refine ⟨by omega, fun inodeBlock _ => ?_⟩
  apply allocDataBlock_balanced.pins (by simp only [List.length_cons]; omega)
  intro dataBlockId _ _
  simp only [List.erase_cons_head]
  exact ⟨by omega, fun _ => hQ⟩

theorem makeFile_pins (name : CString) (slot : Slot) (dirI : Nat)
    {Q : Unit → List Nat → Prop} (hlen : held.length + 3 ≤ limit) (hQ : Q () held) :
    (makeFile sb undef name slot dirI).Pins limit
      (slot.faDirBlock :: slot.faInodeBlock :: held) Q := by
  rw [makeFile, pins_bind]
  apply addEntry_pins _ _ _ (by simp only [List.length_cons]; omega)
  intro inodeId
  simp only [pins_bind, pins_blockCommit, pins_blockGet, pins_read, pins_write,
    List.length_cons, List.erase_cons_head]
  exact ⟨by omega, fun _ _ => hQ⟩

/-! ### Open files -/

theorem addrBlock_pins (inode : Inode) (a : Fin 13) {Q : Nat × Inode → List Nat → Prop}
    (hlen : held.length + 2 ≤ limit) (hQ : ∀ page inode, Q (page, inode) (page :: held)) :
    (addrBlock sb undef inode a).Pins limit held Q := by
  unfold addrBlock
  split
  · simp only [pins_bind, pins_blockGet, pins_pure]
    exact ⟨by omega, fun page => hQ page inode⟩
  · rw [pins_bind]
    apply allocDataBlock_balanced.pins (by omega)
    intro dataBlockId
    simp only [pins_bind, pins_blockGet, pins_read, pins_write, pins_pure]
    exact ⟨by omega, fun page _ => hQ page _⟩

theorem addrEntry_balanced (page k : Nat) : (addrEntry sb undef page k).Balanced 1 := by
  apply (balanced_read page).bind
  intro addrs
  split
  · exact balanced_pure _
  · apply allocDataBlock_balanced.bind
    intro dataBlockId
    apply (balanced_read page).bind
    intro addrs
    exact (balanced_write page _).bind fun _ => balanced_pure _

theorem addrEntryBlock_pins (page k : Nat) {Q : Nat × Bool → List Nat → Prop}
    (hlen : held.length + 2 ≤ limit) (hQ : ∀ page dirty, Q (page, dirty) (page :: held)) :
    (addrEntryBlock sb undef page k).Pins limit held Q := by
  rw [addrEntryBlock, pins_bind, pins_read]
  intro addrs
  split
  · simp only [pins_bind, pins_blockGet, pins_pure]
    exact ⟨by omega, fun page => hQ page false⟩
  · rw [pins_bind]
    apply allocDataBlock_balanced.pins (by omega)
    intro blockId
    simp only [pins_bind, pins_blockGet, pins_read, pins_write, pins_pure]
    exact fun _ _ => ⟨by omega, fun page _ => hQ page true⟩

theorem findDataBlock_balanced (inode : Inode) (offset : Nat) :
    (findDataBlock sb undef inode offset).Balanced 3 := by
  intro limit held Q hlen hQ
  unfold findDataBlock
  simp only
  split
  · split
    · rw [pins_bind]
      exact allocDataBlock_balanced.pins (by omega) fun _ => hQ _
    · exact hQ _
  · split
    · rw [pins_bind]
      apply addrBlock_pins _ _ (by omega)
      intro indirectAddrs inode
      rw [pins_bind]
      apply (addrEntry_balanced _ _).pins (by simp only [List.length_cons]; omega)
      intro r
      simp only [pins_bind, pins_blockCommit, pins_pure, List.erase_cons_head]
      exact hQ _
    · split
      · rw [pins_bind]
        apply addrBlock_pins _ _ (by omega)
        intro indirectAddrs inode
        rw [pins_bind]
        apply addrEntryBlock_pins _ _ (by simp only [List.length_cons]; omega)
        intro doubleAddrs indirectDirty
        dsimp only
        rw [pins_bind]
        refine (addrEntry_balanced _ _).pins ?_ ?_
        · simp only [List.length_cons]
          omega
        intro r
        simp only [pins_bind, pins_blockCommit, pins_pure]
        rw [List.erase_comm, List.erase_cons_head, List.erase_cons_head]
        exact hQ _
      · exact hQ _

theorem writeFrom_balanced (buff : List UInt8) (offset n : Nat) (inode : Inode)
    (buffOff fileOff : Nat) :
    (writeFrom sb undef buff offset n inode buffOff fileOff).Balanced 3 := by
  induction n generalizing inode buffOff fileOff with
  | zero => exact balanced_pure _
  | succ n ih =>
    unfold writeFrom
    split
    · apply (findDataBlock_balanced _ _).bind
      intro r
      apply balanced_get _ (by omega)
      intro dataBlock limit held Q hlen hQ
      simp only [pins_bind, pins_read, pins_write, pins_blockCommit, List.erase_cons_head]
      exact fun _ => ih _ _ _ limit held Q hlen hQ
    · exact balanced_pure _

theorem writeFile_balanced (file : OpenFile) (buff : List UInt8) :
    (writeFile sb undef file buff).Balanced 3 := by
  apply (writeFrom_balanced _ _ _ _ _ _).bind
  intro r
  exact balanced_pure _

theorem readFrom_balanced (size offset n : Nat) (inode : Inode) (out : List UInt8)
    (fileOff : Nat) : (readFrom sb undef size offset n inode out fileOff).Balanced 3 := by
  induction n generalizing inode out fileOff with
  | zero => exact balanced_pure _
  | succ n ih =>
    unfold readFrom
    split
    · apply (findDataBlock_balanced _ _).bind
      intro r
      apply balanced_get _ (by omega)
      intro dataBlock limit held Q hlen hQ
      simp only [pins_bind, pins_read, pins_blockCommit, List.erase_cons_head]
      exact fun _ => ih _ _ _ limit held Q hlen hQ
    · exact balanced_pure _

theorem readFile_balanced (file : OpenFile) (size : Nat) :
    (readFile sb undef file size).Balanced 3 := by
  apply (readFrom_balanced _ _ _ _ _ _).bind
  intro r
  exact balanced_pure _

theorem writeBack_balanced (file : OpenFile) : (writeBack sb file).Balanced 1 := by
  apply balanced_get _ (by omega)
  intro page limit held Q _ hQ
  simp only [pins_bind, pins_read, pins_write, pins_blockCommit, List.erase_cons_head]
  exact fun _ => hQ ()

end Calls

/-! ## The system -/

/-- The globals of `fs.c` outside the block layer. -/
structure FsGlobals (P : Type) where
  cur : CurDir
  tables : FileTables P

/-- A call, with the value that its uninitialised locals hold.  `caller` is
the running process. -/
inductive FsCall (P : Type) where
  | ls (inodeId : Nat)
  | find (path : CString)
  | findDir (path : CString)
  | cd (undefName path : CString)
  | mkdir (undef faInodeId : Nat) (name : CString)
  | touch (undef faInodeId : Nat) (name : CString)
  | opens (caller : P) (name : CString) (access : Nat)
  | read (undef : Nat) (caller : P) (fd : Fin maxFiles) (size : Nat)
  | write (undef : Nat) (caller : P) (fd : Fin maxFiles) (buff : List UInt8)
  | seek (caller : P) (fd : Fin maxFiles) (offset : Int)
  | closes (caller : P) (fd : Fin maxFiles)

section System

variable {P : Type} [DecidableEq P]

/-- Change an entry of the table of open files. -/
def FileTables.setFile (t : FileTables P) (f : Fin globalMaxFiles) (file : OpenFile) :
    FileTables P :=
  { t with files := Function.update t.files f file }

/-- The program of a call, which answers the globals afterwards.  A null
descriptor is a fault. -/
def FsCall.prog (sb : SuperBlock) (g : FsGlobals P) : FsCall P → Option (Prog (FsGlobals P))
  | .ls inodeId => some do
    let _ ← doLs sb inodeId
    return g
  | .find path => some do
    let _ ← doFind sb g.cur.inode path
    return g
  | .findDir path => some do
    let _ ← doFindDir sb g.cur.inode path
    return g
  | .cd undefName path => some do
    return { g with cur := ← doCd sb undefName g.cur path }
  | .mkdir undef faInodeId name => some do
    doMkdir sb undef faInodeId name
    return g
  | .touch undef faInodeId name => some do
    doTouch sb undef faInodeId name
    return g
  | .opens caller name access => some do
    let (_, tables) ← openFile sb g.cur.inode g.tables caller name access
    return { g with tables := tables }
  | .read undef caller fd size => do
    let f ← g.tables.fds caller fd
    return do
      let (_, file) ← readFile sb undef (g.tables.files f) size
      return { g with tables := g.tables.setFile f file }
  | .write undef caller fd buff => do
    let f ← g.tables.fds caller fd
    return do
      let file ← writeFile sb undef (g.tables.files f) buff
      return { g with tables := g.tables.setFile f file }
  | .seek caller fd offset => do
    let f ← g.tables.fds caller fd
    return pure { g with tables := g.tables.setFile f ((g.tables.files f).seek offset) }
  | .closes caller fd => do
    let f ← g.tables.fds caller fd
    let tables ← g.tables.closeFile caller fd
    return do
      writeBack sb (g.tables.files f)
      return { g with tables := tables }

/-- The whole of `fs.c`. -/
structure FsState (P : Type) where
  fs : FileSystem
  globals : FsGlobals P

/-- A call of the file system. -/
inductive FsEvent (P : Type) where
  | mount (partId : Fin 4)
  | init (partId : Fin 4)
  | unmount
  | call (c : FsCall P)

namespace FsState

/-- `*fs_super_block` -/
def superBlock (s : FsState P) : SuperBlock := .ofPage (s.fs.cache.mem s.fs.fsSuperBlock)

/-- One call, over the cache.  `none` when it does not return. -/
def step (s : FsState P) : FsEvent P → Option (FsState P)
  | .mount partId => some { s with fs := (mountFileSystem s.fs partId).2 }
  | .init partId => (initFileSystem s.fs partId).map fun fs => { s with fs := fs }
  | .unmount => some { s with fs := (unmountFileSystem s.fs).2 }
  | .call c => do
    let p ← c.prog s.superBlock s.globals
    let (g, cache) ← runProg p s.fs.cache
    return { fs := { s.fs with cache := cache }, globals := g }

/-- Nothing is mounted and no file has been opened.  `behind` is what the memory behind
the page of `files` holds. -/
def boot (P : Type) (table : PartitionTable) (card : Card) (mem : Nat → Block)
    (part : Fin 4) (behind : Fin globalMaxFiles → OpenFile) : FsState P where
  fs := { cache := bootCache table card mem part, fsMounted := false, fsSuperBlock := 0 }
  globals := { cur := { name := rootName, inode := 0 }, tables := FileTables.init behind }

end FsState

end System

/-! ## Mounting and formatting hold nothing -/

section Mount

variable {extra : Finset Nat} {c : Cache} {m : FileSystem}

theorem Pinned.overwrite (h : Pinned extra [] c) (b : Nat) (x : Block) :
    ∃ c', c.overwrite b x = some c' ∧ Pinned extra [] c' := by
  obtain ⟨page, c₁, hget, hpinned⟩ := h.get (by decide) b false
  refine ⟨_, by rw [Cache.overwrite, hget]; rfl, ?_⟩
  have hcommit := (hpinned.poke page x).commit page true
  rwa [List.erase_cons_head] at hcommit

theorem Pinned.foldlM_overwrite (blocks : List (Nat × Block)) (h : Pinned extra [] c) :
    ∃ c', blocks.foldlM (fun c (b, x) => c.overwrite b x) c = some c' ∧
      Pinned extra [] c' := by
  induction blocks generalizing c with
  | nil => exact ⟨c, rfl, h⟩
  | cons e rest ih =>
    obtain ⟨c₁, hfirst, h₁⟩ := h.overwrite e.1 e.2
    obtain ⟨c₂, hrest, h₂⟩ := ih h₁
    refine ⟨c₂, ?_, h₂⟩
    rw [List.foldlM_cons]
    exact (congrArg (Option.bind · _) hfirst).trans hrest

/-- A mounted file system has its super block in a page of its own. -/
structure FsInv (extra : Finset Nat) (m : FileSystem) : Prop where
  pinned : Pinned extra [] m.cache
  super_mem : m.fsMounted = true → m.fsSuperBlock ∈ extra
  card_lt : m.fsMounted = false → extra.card < 8

theorem Pinned.select (h : Pinned extra [] m.cache) (hcard : extra.card < 8) (p : Fin 4) :
    Pinned (insert m.cache.newPage extra) [] (m.select p).cache :=
  h.congr ((h.wf.alloc hcard).congr rfl (fun _ => rfl) fun _ => rfl) rfl

theorem Pinned.writeSuperBlock (h : Pinned extra [] m.cache) :
    Pinned extra [] m.writeSuperBlock.cache := by
  unfold FileSystem.writeSuperBlock
  exact h.congr (h.wf.congr rfl (fun _ => rfl) fun _ => rfl) rfl

theorem Pinned.sink (h : Pinned extra [] c) : Pinned extra [] (blockSink c) := by
  obtain ⟨_, _, _, hbuff⟩ := blockSink_frame c
  apply Cache.Idle.pinned _ (blockSink_wf h.wf)
  intro i
  rw [hbuff]
  exact h.idle i

theorem Pinned.free (h : Pinned extra [] c) {a : Nat} (ha : a ∈ extra) :
    Pinned (extra.erase a) []
      { c with pageCtrlKernel := freePage c.pageCtrlKernel a } :=
  h.congr (h.wf.free ha) rfl

theorem FsInv.mount (h : FsInv extra m) (p : Fin 4) :
    ∃ extra', FsInv extra' (mountFileSystem m p).2 := by
  unfold mountFileSystem
  cases hmounted : m.fsMounted with
  | true => exact ⟨extra, h⟩
  | false =>
    have hcard := h.card_lt hmounted
    have hselect := (h.pinned.select hcard p).poke (m.select p).fsSuperBlock
      (blockRead (m.select p).cache.table (m.select p).cache.card p 1)
    have hmem : m.cache.newPage ∈ insert m.cache.newPage extra := Finset.mem_insert_self _ _
    simp only [Bool.false_eq_true, if_false]
    split
    · refine ⟨(insert m.cache.newPage extra).erase m.cache.newPage, ?_, ?_, ?_⟩
      · exact hselect.free hmem
      · intro hm
        rw [show (m.select p).fsMounted = m.fsMounted from rfl, hmounted] at hm
        cases hm
      · intro _
        have hle := Finset.card_insert_le m.cache.newPage extra
        have hlt := Finset.card_erase_lt_of_mem hmem
        omega
    · refine ⟨insert m.cache.newPage extra, hselect, fun _ => hmem, ?_⟩
      intro hm
      cases hm

theorem FsInv.unmount (h : FsInv extra m) :
    ∃ extra', FsInv extra' (unmountFileSystem m).2 := by
  unfold unmountFileSystem
  cases hmounted : m.fsMounted with
  | false => exact ⟨extra, h⟩
  | true =>
    have hmem := h.super_mem hmounted
    have hsunk : Pinned extra [] { m with cache := blockSink m.cache }.cache := h.pinned.sink
    refine ⟨extra.erase m.fsSuperBlock, hsunk.writeSuperBlock.free hmem, ?_, ?_⟩
    · intro hm
      cases hm
    · intro _
      exact lt_of_lt_of_le (Finset.card_erase_lt_of_mem hmem) h.pinned.wf.extra_card

theorem FsInv.init (h : FsInv extra m) (p : Fin 4) :
    ∃ m' extra', initFileSystem m p = some m' ∧ FsInv extra' m' := by
  unfold initFileSystem
  cases hmounted : m.fsMounted with
  | true => exact ⟨m, extra, rfl, h⟩
  | false =>
    have hselect := h.pinned.select (h.card_lt hmounted) p
    have hsetup : Pinned (insert m.cache.newPage extra) [] (m.setup p).cache := by
      unfold FileSystem.setup
      exact Pinned.writeSuperBlock (hselect.poke _ _)
    obtain ⟨c, hfold, hc⟩ := hsetup.foldlM_overwrite
      (setupBlocks (setupSuperBlock ((m.setup p).cache.table p).sectorNum))
    refine ⟨{ m.setup p with cache := c, fsMounted := true },
      insert m.cache.newPage extra, ?_, hc, ?_, ?_⟩
    · simp only [Bool.false_eq_true, if_false, Option.bind_eq_bind, Option.pure_def]
      rw [hfold]
      rfl
    · intro _
      exact Finset.mem_insert_self _ _
    · intro hm
      cases hm

end Mount

/-! ## The calls -/

theorem runProg_bind {α β : Type} (p : Prog α) (f : α → Prog β) (c : Cache) :
    runProg (p >>= f) c = (runProg p c).bind fun e => runProg (f e.1) e.2 := by
  show runProg (p.bind f) c = _
  induction p generalizing c with
  | done a => rfl
  | get b r next ih =>
    simp only [BlockProg.bind, runProg, Option.bind_assoc]
    exact congrArg _ (funext fun e => ih e.1 e.2)
  | load page next ih => exact ih _ _
  | store page x next ih => exact ih _
  | commit page w next ih => exact ih _

/-- The program comes back and holds nothing. -/
def Returns {α : Type} (extra : Finset Nat) (c : Cache) (p : Prog α) : Prop :=
  ∃ a c', runProg p c = some (a, c') ∧ Pinned extra [] c'

section Returns

variable {α β : Type} {extra : Finset Nat} {c : Cache} {p : Prog α} {f : α → Prog β}

theorem Pinned.returns {n : Nat} (h : Pinned extra [] c) (hp : p.Balanced n)
    (hn : n ≤ diskBuffSize) : Returns extra c p := by
  have hpins : p.Pins diskBuffSize [] fun _ held => held = [] :=
    hp.pins (by simpa using hn) fun _ => rfl
  obtain ⟨a, c', held, hrun, hpinned, rfl⟩ := h.run hpins
  exact ⟨a, c', hrun, hpinned⟩

theorem Returns.bind {n : Nat} (h : Returns extra c p) (hf : ∀ a, (f a).Balanced n)
    (hn : n ≤ diskBuffSize) : Returns extra c (p >>= f) := by
  obtain ⟨a, c₁, hrun, h₁⟩ := h
  obtain ⟨b, c₂, hrun₂, h₂⟩ := h₁.returns (hf a) hn
  refine ⟨b, c₂, ?_, h₂⟩
  rw [runProg_bind, hrun]
  exact hrun₂

theorem Returns.map (h : Returns extra c p) (g : α → β) :
    Returns extra c (p >>= fun a => pure (g a)) :=
  h.bind (fun _ => balanced_pure (n := 0) _) (Nat.zero_le _)

end Returns

/-- The program never runs out of buffers, and it leaves at most two pages
uncommitted. -/
def Short {α : Type} (p : Prog α) : Prop :=
  p.Pins diskBuffSize [] fun _ held => held.length ≤ 2

section Short

variable {α β : Type} {p : Prog α} {f : α → Prog β} {sb : SuperBlock} {undef : Nat}

theorem short_of_balanced {n : Nat} (hp : p.Balanced n) (hn : n ≤ diskBuffSize) : Short p :=
  hp.pins (by simpa using hn) fun _ => Nat.zero_le _

theorem Short.bind (hp : Short p) (hf : ∀ a, (f a).Balanced 3) : Short (p >>= f) := by
  apply pins_bind.mpr
  apply Pins.mono hp
  intro a held hlen
  apply (hf a).pins
  · show held.length + 3 ≤ 32
    omega
  · exact fun _ => hlen

theorem Short.map (hp : Short p) (g : α → β) : Short (p >>= fun a => pure (g a)) :=
  hp.bind fun _ => balanced_pure _

theorem short_walk (curDirInode : Int) (path : CString) : Short (walk sb curDirInode path) :=
  walk_pins curDirInode path (by decide) fun _ _ hlen _ => hlen

theorem short_doMkdir (faInodeId : Nat) (name : CString) :
    Short (doMkdir sb undef faInodeId name) := by
  rw [doMkdir, Short, pins_bind]
  apply searchSlot_pins _ _ (by decide)
  intro slot
  split
  · exact le_rfl
  · exact makeDir_pins _ _ _ _ (by decide) (Nat.zero_le 2)

theorem short_doTouch (faInodeId : Nat) (name : CString) :
    Short (doTouch sb undef faInodeId name) := by
  rw [doTouch, Short, pins_bind]
  apply searchSlot_pins _ _ (by decide)
  intro slot
  split
  · exact le_rfl
  · exact makeFile_pins _ _ _ (by decide) (Nat.zero_le 2)

/-- What `open` does after the walk. -/
theorem openFound_balanced {P : Type} [DecidableEq P] (t : FileTables P) (caller : P)
    (access : Nat) (found : Nat) : (openFound sb t caller access found).Balanced 1 := by
  unfold openFound
  dsimp only
  split
  · exact balanced_pure _
  · apply balanced_get _ (by omega)
    intro page limit held Q _ hQ
    simp only [pins_bind, pins_read, pins_blockCommit, List.erase_cons_head]
    intro _
    split <;> exact hQ _

end Short

section Calls

variable {P : Type} [DecidableEq P] {sb : SuperBlock} {g : FsGlobals P} {call : FsCall P}
  {p : Prog (FsGlobals P)}

theorem FsCall.short (h : call.prog sb g = some p) : Short p := by
  have hthree : 3 ≤ diskBuffSize := by decide
  cases call with
  | ls inodeId =>
    obtain rfl := Option.some.inj h
    exact (short_of_balanced (doLs_balanced inodeId) (by decide)).map _
  | find path =>
    obtain rfl := Option.some.inj h
    rw [doFind_eq]
    exact ((short_walk g.cur.inode path).map _).map _
  | findDir path =>
    obtain rfl := Option.some.inj h
    rw [doFindDir_eq]
    refine Short.map ((short_walk g.cur.inode path).bind fun w => ?_) _
    exact ((checkDir_balanced w.inodeId).mono (by decide)).bind fun _ => balanced_pure _
  | cd undefName path =>
    obtain rfl := Option.some.inj h
    refine Short.map ((short_walk g.cur.inode path).bind fun w => ?_) _
    exact ((checkDir_balanced w.inodeId).mono (by decide)).bind fun _ => balanced_pure _
  | mkdir undef faInodeId name =>
    obtain rfl := Option.some.inj h
    exact (short_doMkdir faInodeId name).map _
  | touch undef faInodeId name =>
    obtain rfl := Option.some.inj h
    exact (short_doTouch faInodeId name).map _
  | opens caller name access =>
    obtain rfl := Option.some.inj h
    refine Short.map ?_ _
    unfold openFile
    split
    · exact short_of_balanced (balanced_pure (n := 0) _) (by decide)
    · rw [doFind_eq]
      refine Short.bind ((short_walk g.cur.inode name).map _) fun found => ?_
      exact (openFound_balanced g.tables caller access found).mono (by decide)
  | read undef caller fd size =>
    obtain ⟨f, _, hp⟩ := Option.bind_eq_some_iff.mp h
    obtain rfl := Option.some.inj hp
    exact (short_of_balanced (readFile_balanced _ _) hthree).map _
  | write undef caller fd buff =>
    obtain ⟨f, _, hp⟩ := Option.bind_eq_some_iff.mp h
    obtain rfl := Option.some.inj hp
    exact (short_of_balanced (writeFile_balanced _ _) hthree).map _
  | seek caller fd offset =>
    obtain ⟨f, _, hp⟩ := Option.bind_eq_some_iff.mp h
    obtain rfl := Option.some.inj hp
    exact Nat.zero_le 2
  | closes caller fd =>
    obtain ⟨f, _, hp⟩ := Option.bind_eq_some_iff.mp h
    obtain ⟨t, _, hp⟩ := Option.bind_eq_some_iff.mp hp
    obtain rfl := Option.some.inj hp
    exact (short_of_balanced (writeBack_balanced _) (by decide)).map _

end Calls

end MipsOs.Fs
