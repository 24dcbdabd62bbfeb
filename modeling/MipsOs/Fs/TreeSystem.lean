import MipsOs.Fs.TreePaths
import MipsOs.Lib.Run

/-!
# Runs of a new file system

The system is the flat store that `init_file_system` leaves, next to the current
directory.  Its steps are `do_mkdir`, `do_touch` and `do_cd`, with any content of
the pages that are not read and any value of the uninitialised locals.

The tree of directories is an invariant of the runs.  `directories_form_tree` is
the result.
-/

namespace MipsOs.Fs

open MipsOs.Lib MipsOs.Lib.BlockProg

/-- The blocks of the partition, and the current directory. -/
structure TreeState where
  store : BlockStore
  cur : CurDir

/-- `undef` and `undefName` are the values of uninitialised locals, and `unread`
is what the blocks hold that are not read. -/
inductive TreeOp where
  | mkdir (faInodeId : Nat) (name : CString) (undef : Nat) (unread : List (Option Block))
  | touch (faInodeId : Nat) (name : CString) (undef : Nat) (unread : List (Option Block))
  | cd (path undefName : CString) (unread : List (Option Block))

/-- The parent and the name of a call that creates. -/
def TreeOp.creates : TreeOp → Option (Nat × CString)
  | .mkdir fa name _ _ => some (fa, name)
  | .touch fa name _ _ => some (fa, name)
  | .cd _ _ _ => none

namespace TreeSystem

section Defs

variable (sb : SuperBlock)

/-- One call, over a flat store. -/
def step (st : TreeState) : TreeOp → Option TreeState
  | .mkdir fa name undef unread =>
    some { st with store := ((doMkdir sb undef fa name).flat unread st.store).2.2 }
  | .touch fa name undef unread =>
    some { st with store := ((doTouch sb undef fa name).flat unread st.store).2.2 }
  | .cd path undefName unread =>
    some { store := ((doCd sb undefName st.cur path).flat unread st.store).2.2
           cur := ((doCd sb undefName st.cur path).flat unread st.store).1 }

/-- The state after `init_file_system`. -/
def start (old : BlockStore) (unread : List (Option Block)) : TreeState where
  store := ((initBlocks sb).flat unread old).2.2
  cur := { name := rootName, inode := 0 }

/-- The directory `fa` has an entry with the name. -/
def HasName (s : BlockStore) (fa : Nat) (name : CString) : Prop :=
  ∃ i < dentryPerBlock, entryEmpty (dirOf sb s fa) i = false ∧ entryName (dirOf sb s fa) i = name

/-- An inode is free. -/
def FreeInode (s : BlockStore) : Prop := ∃ i < bitsPerBlock, ¬ InodeUsed sb s i

/-- A data block is free. -/
def FreeBlock (s : BlockStore) : Prop := ∃ b, sb.dataStart ≤ b ∧ b < sb.size ∧ ¬ BlockUsed sb s b

/-- The directory `fa` has an empty entry. -/
def FreeSlot (s : BlockStore) (fa : Nat) : Prop :=
  ∃ i < dentryPerBlock, entryEmpty (dirOf sb s fa) i = true

/-- The parent is a directory, the name fits into an entry, and there is room
for what a new name needs. -/
structure CanCreate (s : BlockStore) (fa : Nat) (name : CString) (needsBlock : Bool) : Prop where
  dir : Directory sb s fa
  short : name.strlen < maxName
  room : ¬ HasName sb s fa name →
    FreeSlot sb s fa ∧ FreeInode sb s ∧ (needsBlock = true → FreeBlock sb s)

/-- The calls that have room. -/
def Room (st : TreeState) : TreeOp → Prop
  | .mkdir fa name _ _ => CanCreate sb st.store fa name true
  | .touch fa name _ _ => CanCreate sb st.store fa name false
  | .cd path _ _ => path.strlen < 100

/-- A name that is one component of a path. -/
def IsComponent (name : CString) : Prop := name.bytes ≠ [] ∧ slash ∉ name.bytes

/-- The calls with a single component for a name. -/
def CallerOk (st : TreeState) (op : TreeOp) : Prop :=
  Room sb st op ∧ ∀ fa name, op.creates = some (fa, name) → IsComponent name

end Defs

/-! ## The invariant -/

/-- What holds in every state of a run. -/
structure Inv (sb : SuperBlock) (st : TreeState) : Prop where
  tree : DirTree sb st.store
  own : OwnBlocks sb st.store
  cur : ∃ d : Nat, st.cur.inode = d ∧ Directory sb st.store d

section Invariant

variable {sb : SuperBlock} {s : BlockStore} {st st' : TreeState} {fa : Nat} {name : CString}
  {needsBlock : Bool} {undef : Nat} {unread : List (Option Block)}

/-- Either the name makes no difference, or it is new and there is room. -/
theorem CanCreate.cases (h : CanCreate sb s fa name needsBlock) (htree : DirTree sb s) :
    freeSlot (dirOf sb s fa) name = none ∧ (HasName sb s fa name ∨ name.bytes = []) ∨
      ∃ n, freeSlot (dirOf sb s fa) name = some n ∧ NewName sb s fa n name ∧ FreeInode sb s ∧
        (needsBlock = true → FreeBlock sb s) := by
  obtain ⟨p, hblock, _⟩ := htree.block fa h.dir
  obtain ⟨n, htwo, hentries⟩ := hblock.entries
  have hle := hentries.le
  by_cases hhas : HasName sb s fa name
  · obtain ⟨i, hi, hused, hname⟩ := hhas
    have hin : i < n := by
      by_contra hge
      rw [hentries.empty i (by omega) hi] at hused
      cases hused
    exact .inl ⟨hentries.freeSlot_none hin hname, .inl ⟨i, hi, hused, hname⟩⟩
  · obtain ⟨⟨i, hi, hempty⟩, hinode, hfree⟩ := h.room hhas
    have hn : n < dentryPerBlock := by
      by_contra hge
      rw [hentries.used i (by omega)] at hempty
      cases hempty
    by_cases hne : name.bytes = []
    · exact .inl ⟨hentries.freeSlot_empty hn hne, .inr hne⟩
    · have hother : ∀ i < n, entryName (dirOf sb s fa) i ≠ name :=
        fun i hi heq => hhas ⟨i, by omega, hentries.used i hi, heq⟩
      exact .inr ⟨n, hentries.freeSlot_some hn hne hother,
        ⟨h.dir, hentries, hn, hne, h.short, hother⟩, hinode, hfree⟩

/-- What a creating call comes to: nothing, or one new inode in the parent. -/
def Creates (sb : SuperBlock) (s t : BlockStore) (fa : Nat) (name : CString) : Prop :=
  t = s ∧ (HasName sb s fa name ∨ name.bytes = []) ∨
    ∃ n inodeId newBlock, NewName sb s fa n name ∧ Created sb s t fa n name inodeId newBlock

theorem doMkdir_creates (hr : Regions sb) (htree : DirTree sb s) (hown : OwnBlocks sb s)
    (h : CanCreate sb s fa name true) :
    Creates sb s ((doMkdir sb undef fa name).flat unread s).2.2 fa name := by
  rcases h.cases htree with ⟨hslot, hsame⟩ | ⟨n, hslot, hname, hinode, hfree⟩
  · exact .inl ⟨(doMkdir_sat_present hslot).flat unread, hsame⟩
  · have hblock := hown.le fa h.dir
    obtain ⟨inodeId, b, hfirst, hb, hbn, hbfree, ht⟩ :=
      (doMkdir_sat hr hslot hblock hinode (hfree rfl)).flat unread
    have hne : b ≠ (inodeOf sb s fa).addrs 0 := by
      rintro rfl
      exact hbfree (hown.used fa h.dir hbn)
    rw [ht]
    exact .inr ⟨n, inodeId, some b, hname,
      madeDir_created hr hblock hfirst.lt hfirst.unused hb hbn hbfree hne⟩

theorem doTouch_creates (hr : Regions sb) (htree : DirTree sb s) (hown : OwnBlocks sb s)
    (h : CanCreate sb s fa name needsBlock) :
    Creates sb s ((doTouch sb undef fa name).flat unread s).2.2 fa name := by
  rcases h.cases htree with ⟨hslot, hsame⟩ | ⟨n, hslot, hname, hinode, _⟩
  · exact .inl ⟨(doTouch_sat_present hslot).flat unread, hsame⟩
  · obtain ⟨inodeId, hfirst, ht⟩ := (doTouch_sat hslot hinode).flat unread
    rw [ht]
    exact .inr ⟨n, inodeId, none, hname,
      madeFile_created hr (hown.le fa h.dir) hfirst.lt hfirst.unused⟩

/-- A creating call keeps the invariant. -/
theorem Inv.creates (h : Inv sb st) {t : BlockStore} (ht : Creates sb st.store t fa name) :
    Inv sb { st with store := t } := by
  rcases ht with ⟨rfl, _⟩ | ⟨n, inodeId, newBlock, hname, hc⟩
  · exact h
  · obtain ⟨d, hcur, hd⟩ := h.cur
    exact ⟨h.tree.created h.own hname hc, h.own.created hc, d, hcur,
      hc.directory_iff.mpr (.inl hd)⟩

/-- `do_cd` ends in a directory. -/
theorem Inv.cd (h : Inv sb st) (path undefName : CString) :
    Inv sb { store := ((doCd sb undefName st.cur path).flat unread st.store).2.2
             cur := ((doCd sb undefName st.cur path).flat unread st.store).1 } := by
  rw [doCd_flat]
  refine ⟨h.tree, h.own, ?_⟩
  obtain ⟨d, hcur, hd⟩ := h.cur
  obtain ⟨e, he, halloc⟩ := h.tree.pathOn_allocated hd.toAllocated path
  dsimp only
  rw [hcur, he]
  by_cases hok : (pathOn sb st.store d path).error = false ∧ IsDir sb st.store e
  · rw [if_pos hok, CurDir.change, hok.1, if_neg (by decide)]
    split
    · exact ⟨0, rfl, h.tree.root⟩
    · exact ⟨e, he, halloc, hok.2⟩
  · rw [if_neg hok]
    exact ⟨d, hcur, hd⟩

theorem step_inv (hr : Regions sb) (h : Inv sb st) {op : TreeOp} (hok : Room sb st op)
    (hstep : step sb st op = some st') : Inv sb st' := by
  cases op with
  | mkdir fa name undef unread =>
    obtain rfl := Option.some.inj hstep
    exact h.creates (doMkdir_creates hr h.tree h.own hok)
  | touch fa name undef unread =>
    obtain rfl := Option.some.inj hstep
    exact h.creates (doTouch_creates hr h.tree h.own hok)
  | cd path undefName unread =>
    obtain rfl := Option.some.inj hstep
    exact h.cd path undefName

/-- In a new file system inode 0 is the one directory. -/
theorem allocated_newStore (hr : Regions sb) {old : BlockStore} {i : Nat} :
    Allocated sb (newStore sb old) i ↔ i = 0 := by
  constructor
  · intro h
    exact (inodeUsed_newStore hr).mp h.used
  · rintro rfl
    exact ⟨by decide, (inodeUsed_newStore hr).mpr rfl⟩

theorem directory_newStore (hr : Regions sb) {old : BlockStore} {d : Nat} :
    Directory sb (newStore sb old) d ↔ d = 0 := by
  constructor
  · intro h
    exact (allocated_newStore hr).mp h.toAllocated
  · rintro rfl
    exact ⟨(allocated_newStore hr).mpr rfl, (inodeOf_newStore hr).1⟩

theorem dirTree_newStore (hr : Regions sb) (old : BlockStore) : DirTree sb (newStore sb old) := by
  have hroot : Directory sb (newStore sb old) 0 := (directory_newStore hr).mpr rfl
  have hdir : dirOf sb (newStore sb old) (0 : Nat) = newDir 0 0 := dirOf_newStore hr
  have hchild : ∀ d i c, ¬ Child sb (newStore sb old) d i c := by
    rintro d i c ⟨hd, htwo, hlt, hused, _⟩
    obtain rfl := (directory_newStore hr).mp hd
    rw [hdir, entries_newDir.empty i htwo hlt] at hused
    cases hused
  refine ⟨⟨hroot.toAllocated, ?_, ?_, ?_, ?_⟩, hroot, ?_⟩
  · exact fun d i c h => absurd h (hchild d i c)
  · exact fun d i => hchild d i 0
  · exact fun d i e j c h => absurd h (hchild d i c)
  · intro d hd
    obtain rfl := (allocated_newStore hr).mp hd
    exact .refl
  · intro d hd
    obtain rfl := (directory_newStore hr).mp hd
    refine ⟨0, ?_, .inl ⟨rfl, rfl⟩⟩
    rw [hdir]
    exact newDir_dirBlock (by decide) (by decide)

theorem ownBlocks_newStore (hr : Regions sb) (old : BlockStore) :
    OwnBlocks sb (newStore sb old) := by
  have haddr : ∀ d, Directory sb (newStore sb old) d →
      (inodeOf sb (newStore sb old) d).addrs 0 = sb.dataStart := by
    intro d hd
    obtain rfl := (directory_newStore hr).mp hd
    exact (inodeOf_newStore hr).2
  constructor
  · intro d hd
    rw [haddr d hd]
  · intro d hd hlt
    rw [haddr d hd] at hlt ⊢
    exact (blockUsed_newStore hr hr.dataStart_lt hlt).mpr le_rfl
  · intro d e hd he _
    rw [(directory_newStore hr).mp hd, (directory_newStore hr).mp he]

theorem start_inv (hr : Regions sb) (old : BlockStore) (unread : List (Option Block)) :
    Inv sb (start sb old unread) := by
  have hstore : (start sb old unread).store = newStore sb old := initBlocks_flat sb unread old
  refine ⟨?_, ?_, 0, rfl, ?_⟩
  · rw [hstore]
    exact dirTree_newStore hr old
  · rw [hstore]
    exact ownBlocks_newStore hr old
  · rw [hstore]
    exact (directory_newStore hr).mpr rfl

/-- The invariant holds in every state of every run. -/
theorem reaches_inv (hr : Regions sb) {old : BlockStore}
    (h : Reaches (step sb) (Room sb) (start sb old unread) st) : Inv sb st :=
  h.invariant (Inv sb) (start_inv hr old unread) fun _ _ _ ha hok hstep =>
    step_inv hr ha hok hstep

end Invariant

/-! ## Creation and paths -/

section Paths

variable {sb : SuperBlock} {st st' : TreeState} {op : TreeOp} {fa : Nat} {name : CString}

/-- A creating step, whatever the call is. -/
theorem step_creates (hr : Regions sb) (h : Inv sb st) (hok : Room sb st op)
    (hstep : step sb st op = some st') (hop : op.creates = some (fa, name)) :
    Creates sb st.store st'.store fa name := by
  cases op with
  | mkdir fa' name' undef unread =>
    obtain ⟨rfl, rfl⟩ := Prod.mk.inj (Option.some.inj hop)
    obtain rfl := Option.some.inj hstep
    exact doMkdir_creates hr h.tree h.own hok
  | touch fa' name' undef unread =>
    obtain ⟨rfl, rfl⟩ := Prod.mk.inj (Option.some.inj hop)
    obtain rfl := Option.some.inj hstep
    exact doTouch_creates hr h.tree h.own hok
  | cd path undefName unread => cases hop

end Paths

/-- The allocated directories form a tree below the root.  Each directory block
begins with `"."` and `".."`, used entries come first, under different names, and
they name allocated inodes. -/
structure WellFormed (sb : SuperBlock) (st : TreeState) : Prop where
  tree : RootedTree (Directory sb st.store)
    (fun d i c => Child sb st.store d i c ∧ Directory sb st.store c) 0
  block : ∀ d, Directory sb st.store d → ∃ p, DirBlock (dirOf sb st.store d) d p ∧
    (d = 0 ∧ p = 0 ∨ ∃ i, Child sb st.store p i d)
  names : ∀ d, Directory sb st.store d → ∀ i < dentryPerBlock,
    entryEmpty (dirOf sb st.store d) i = false →
    Allocated sb st.store (entryInodeId (dirOf sb st.store d) i)
  cur : ∃ d : Nat, st.cur.inode = d ∧ Directory sb st.store d

/-- The step from `s` to `t` makes the name a path from its parent to a new
inode, and every path keeps the inode that it led to. -/
structure AddsPath (sb : SuperBlock) (s t : BlockStore) (fa : Nat) (name : CString) : Prop where
  found : ∃ inodeId, ¬ InodeUsed sb s inodeId ∧ Allocated sb t inodeId ∧
    ∀ unread, ((doFind sb fa name).flat unread t).1 = inodeId
  kept : ∀ d, Directory sb s d → ∀ path : CString, path.strlen < 100 → ∀ unread,
    ((doFind sb d path).flat unread s).1 ≠ asUint (-1) →
    ((doFind sb d path).flat unread t).1 = ((doFind sb d path).flat unread s).1

/-- In every run from a new file system the directories form a tree, and the
creation of a new name adds its path and changes no other. -/
theorem directories_form_tree {sectorNum : Nat} (hsectors : sectorNum < 2 ^ 32)
    {old : BlockStore} {unread : List (Option Block)} {st : TreeState}
    (h : Reaches (step (setupSuperBlock sectorNum)) (CallerOk (setupSuperBlock sectorNum))
      (start (setupSuperBlock sectorNum) old unread) st) :
    WellFormed (setupSuperBlock sectorNum) st ∧
      ∀ op st' fa name, CallerOk (setupSuperBlock sectorNum) st op →
        step (setupSuperBlock sectorNum) st op = some st' → op.creates = some (fa, name) →
        ¬ HasName (setupSuperBlock sectorNum) st.store fa name →
        AddsPath (setupSuperBlock sectorNum) st.store st'.store fa name := by
  have hr := regions_setup hsectors
  have hinv : Inv (setupSuperBlock sectorNum) st :=
    reaches_inv hr (h.mono fun _ _ hok => hok.1)
  constructor
  · refine ⟨?_, hinv.tree.block, fun d hd i => hinv.tree.names_allocated hd, hinv.cur⟩
    exact hinv.tree.tree.restrict hinv.tree.root (fun d hd => hd.toAllocated)
      fun d i c hedge _ => hedge.dir
  · intro op st' fa name hok hstep hop hnew
    obtain ⟨hne, hslash⟩ := hok.2 fa name hop
    rcases step_creates hr hinv hok.1 hstep hop with ⟨_, hsame | hsame⟩ |
      ⟨n, inodeId, newBlock, hname, hc⟩
    · exact absurd hsame hnew
    · exact absurd hsame hne
    · refine ⟨⟨inodeId, hc.unused, hc.allocated_iff.mpr (.inr rfl), ?_⟩, ?_⟩
      · exact hc.doFind_new hname hslash
      · intro d hd path _ unread hok
        exact hc.doFind_kept hinv.tree hinv.own hname hd.toAllocated hok

/-! ## Directories inside of directories -/

theorem letterA_nonzero : (0 : UInt8) ∉ [(97 : UInt8)] := by decide

/-- The name `"a"`. -/
def letterA : CString := ⟨[97], letterA_nonzero⟩

theorem letterA_component : IsComponent letterA := ⟨by decide, by decide⟩

/-- The directories `0, …, k`, each with the next one in it. -/
structure Nested (sb : SuperBlock) (s : BlockStore) (k : Nat) : Prop where
  used_iff : ∀ i, InodeUsed sb s i ↔ i ≤ k
  isDir : ∀ i : Nat, i ≤ k → IsDir sb s i
  addr_lt : ∀ i : Nat, i ≤ k → (inodeOf sb s i).addrs 0 < sb.size
  next : ∀ i < k, dirOf sb s i = setEntry (newDir i (i - 1)) 2 letterA.bytes (i + 1)
  last : dirOf sb s k = newDir k (k - 1)
  few : ∃ blocks : Finset Nat, blocks.card ≤ k + 1 ∧
    ∀ b, sb.dataStart ≤ b → b < sb.size → BlockUsed sb s b → b ∈ blocks

section Nested

variable {sb : SuperBlock} {s : BlockStore} {old : BlockStore} {st : TreeState} {k : Nat}

theorem nested_newStore (hr : Regions sb) (hsize : sb.dataStart < sb.size)
    (hbits : sb.size ≤ bitsPerBlock) : Nested sb (newStore sb old) 0 where
  used_iff i := by rw [inodeUsed_newStore hr, Nat.le_zero]
  isDir i hi := by
    obtain rfl := Nat.le_zero.mp hi
    exact (inodeOf_newStore hr).1
  addr_lt i hi := by
    obtain rfl := Nat.le_zero.mp hi
    exact (inodeOf_newStore hr).2.symm ▸ hsize
  next i hi := by omega
  last := dirOf_newStore hr
  few := by
    refine ⟨{sb.dataStart}, le_rfl, fun b hle hlt hused => ?_⟩
    have hb := (blockUsed_newStore hr (by omega) hlt).mp hused
    exact Finset.mem_singleton.mpr (by omega)

theorem Nested.directory (h : Nested sb s k) {i : Nat} (hi : i ≤ k) (hk : k < bitsPerBlock) :
    Directory sb s i :=
  ⟨⟨by omega, (h.used_iff i).mpr hi⟩, h.isDir i hi⟩

/-- The innermost directory has room for the name. -/
theorem Nested.newName (h : Nested sb s k) (hk : k < bitsPerBlock) : NewName sb s k 2 letterA := by
  have hword : bitsPerBlock ≤ 2 ^ 32 := by decide
  have hblock : DirBlock (newDir k (k - 1)) k (k - 1) := newDir_dirBlock (by omega) (by omega)
  refine ⟨h.directory le_rfl hk, ?_, by decide, by decide, by decide, ?_⟩
  · rw [h.last]
    exact entries_newDir
  · intro i hi
    rw [h.last]
    obtain rfl | rfl : i = 0 ∨ i = 1 := by omega
    · rw [hblock.dot_name]
      decide
    · rw [hblock.dotDot_name]
      decide

theorem Nested.freeInode (h : Nested sb s k) (hk : k + 1 < bitsPerBlock) : FreeInode sb s := by
  refine ⟨k + 1, hk, ?_⟩
  rw [h.used_iff]
  omega

theorem Nested.freeBlock (h : Nested sb s k) (hfit : sb.dataStart + k + 1 < sb.size) :
    FreeBlock sb s := by
  obtain ⟨blocks, hcard, hblocks⟩ := h.few
  have hlt : blocks.card < (Finset.Ico sb.dataStart sb.size).card := by
    rw [Nat.card_Ico]
    omega
  obtain ⟨b, hb, hnot⟩ := Finset.exists_mem_notMem_of_card_lt_card hlt
  obtain ⟨hle, hlt⟩ := Finset.mem_Ico.mp hb
  exact ⟨b, hle, hlt, fun hused => hnot (hblocks b hle hlt hused)⟩

theorem Nested.canCreate (h : Nested sb s k) (hk : k + 1 < bitsPerBlock)
    (hfit : sb.dataStart + k + 1 < sb.size) : CanCreate sb s k letterA true where
  dir := h.directory le_rfl (by omega)
  short := by decide
  room _ := by
    have hempty := (h.newName (by omega)).entries.empty 2 le_rfl (by decide)
    exact ⟨⟨2, by decide, hempty⟩, h.freeInode hk, fun _ => h.freeBlock hfit⟩

theorem Nested.firstFree (h : Nested sb s k) (hk : k + 1 < bitsPerBlock) :
    FirstFree sb s (k + 1) where
  lt := hk
  unused := by
    rw [h.used_iff]
    omega
  below j hj := (h.used_iff j).mpr (by omega)

theorem Nested.created (h : Nested sb s k) (hown : OwnBlocks sb s) (hk : k + 1 < bitsPerBlock)
    {s' : BlockStore} {b : Nat} (hc : Created sb s s' k 2 letterA (k + 1) (some b)) :
    Nested sb s' (k + 1) where
  used_iff i := by
    rw [hc.used_iff, h.used_iff]
    omega
  isDir i hi := by
    by_cases hnew : i = k + 1
    · rw [hnew]
      exact hc.isDir_iff.mpr rfl
    · have hold := (h.directory (i := i) (by omega) (by omega)).toAllocated
      exact (hc.isDir_old hold).mpr (h.isDir i (by omega))
  addr_lt i hi := by
    by_cases hnew : i = k + 1
    · obtain ⟨_, hlt, _, haddr, _⟩ := hc.block b rfl
      rw [hnew, haddr]
      exact hlt
    · have hold := (h.directory (i := i) (by omega) (by omega)).toAllocated
      rw [hc.inodeOf_old hold]
      exact h.addr_lt i (by omega)
  next i hi := by
    have hlast := h.directory le_rfl (by omega)
    by_cases hparent : i = k
    · rw [hparent, hc.dirOf_parent hlast, h.last]
    · have hd := h.directory (i := i) (by omega) (by omega)
      rw [hc.dirOf_old hown hlast hd hparent, h.next i (by omega)]
  last := hc.dirOf_new rfl
  few := by
    obtain ⟨blocks, hcard, hblocks⟩ := h.few
    refine ⟨insert b blocks, (Finset.card_insert_le b blocks).trans (by omega), ?_⟩
    intro c hle hlt hused
    rcases (hc.blockUsed_iff c hlt).mp hused with hold | hnew
    · exact Finset.mem_insert_of_mem (hblocks c hle hlt hold)
    · rw [Option.some.inj hnew]
      exact Finset.mem_insert_self c blocks

/-- One more directory in the innermost one. -/
theorem Nested.mkdir (hr : Regions sb) (h : Nested sb st.store k) (hinv : Inv sb st)
    (hk : k + 1 < bitsPerBlock) (hfit : sb.dataStart + k + 1 < sb.size) :
    CallerOk sb st (.mkdir k letterA 0 []) ∧
      Nested sb ((doMkdir sb 0 k letterA).flat [] st.store).2.2 (k + 1) := by
  have hname := h.newName (by omega)
  have hslot := hname.entries.freeSlot_some hname.lt hname.nonempty hname.fresh
  have hblock := hinv.own.le k hname.dir
  have hmkdir : (doMkdir sb 0 k letterA).Sat st.store _ :=
    doMkdir_sat hr hslot hblock (h.freeInode hk) (h.freeBlock hfit)
  obtain ⟨inodeId, b, hfirst, hb, hbn, hbfree, ht⟩ := hmkdir.flat []
  obtain rfl := (h.firstFree hk).eq hfirst
  have hne : b ≠ (inodeOf sb st.store k).addrs 0 := by
    rintro rfl
    exact hbfree (hinv.own.used k hname.dir hbn)
  refine ⟨⟨h.canCreate hk hfit, ?_⟩, ?_⟩
  · intro fa name hop
    obtain ⟨_, rfl⟩ := Prod.mk.inj (Option.some.inj hop)
    exact letterA_component
  · rw [ht]
    exact h.created hinv.own hk
      (madeDir_created hr hblock hfirst.lt hfirst.unused hb hbn hbfree hne)

/-- The directories are made one after another. -/
theorem exists_nested (hr : Regions sb) (hbits : sb.size ≤ bitsPerBlock)
    (hfit : sb.dataStart + k < sb.size) (old : BlockStore) :
    ∃ st, Reaches (step sb) (CallerOk sb) (start sb old []) st ∧ Nested sb st.store k := by
  induction k with
  | zero =>
    have hstore : (start sb old []).store = newStore sb old := initBlocks_flat sb [] old
    exact ⟨_, .refl _, hstore ▸ nested_newStore hr hfit hbits⟩
  | succ k ih =>
    obtain ⟨st, hreach, hnested⟩ := ih (by omega)
    have hinv := reaches_inv hr (hreach.mono fun _ _ hok => hok.1)
    obtain ⟨hok, hnext⟩ := hnested.mkdir hr hinv (by omega) (by omega)
    exact ⟨_, hreach.snoc hok rfl, hnext⟩

end Nested

/-- In a new partition of 1024 blocks, below four directories `a` inside of each other,
`do_mkdir` makes the path `"a"` once more. -/
theorem nested_directory_found :
    ∃ st st', Reaches (step (setupSuperBlock 8192)) (CallerOk (setupSuperBlock 8192))
        (start (setupSuperBlock 8192) (fun _ => zeroBlock) []) st ∧
      Nested (setupSuperBlock 8192) st.store 4 ∧
      step (setupSuperBlock 8192) st (.mkdir 4 letterA 0 []) = some st' ∧
      AddsPath (setupSuperBlock 8192) st.store st'.store 4 letterA := by
  have hr : Regions (setupSuperBlock 8192) := regions_setup (by decide)
  obtain ⟨st, hreach, hnested⟩ :=
    exists_nested (k := 4) hr (by decide) (by decide) fun _ => zeroBlock
  have hinv := reaches_inv hr (hreach.mono fun _ _ hok => hok.1)
  obtain ⟨hok, _⟩ := hnested.mkdir hr hinv (by decide) (by decide)
  refine ⟨st, _, hreach, hnested, rfl,
    (directories_form_tree (by decide) hreach).2 _ _ 4 letterA hok rfl rfl ?_⟩
  rintro ⟨i, hi, hused, hname⟩
  have hnew := hnested.newName (by decide)
  exact hnew.fresh i (hnew.entries.lt_of_used hi hused) hname

end TreeSystem

end MipsOs.Fs
