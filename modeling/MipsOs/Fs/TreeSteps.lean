import MipsOs.Fs.Rmdir

/-!
# Steps that keep the tree of directories

A write to a file leaves the inodes and the directory blocks as they are (`SameDirs`),
and so the tree.  The removal of an empty directory deletes a leaf of the tree, when its
entry is the last one of the parent and the block that is freed is its own
(`DirTree.removed`).
-/

namespace MipsOs.Fs

open MipsOs.Lib MipsOs.Lib.BlockProg

/-! ## The directories stay -/

/-- The inode bitmap, the types and the directory blocks are as before, and no block
has been freed. -/
structure SameDirs (sb : SuperBlock) (s t : BlockStore) : Prop where
  used_iff : ∀ i, InodeUsed sb t i ↔ InodeUsed sb s i
  type_eq : ∀ i < bitsPerBlock, (inodeOf sb t i).type = (inodeOf sb s i).type
  addr_eq : ∀ d, Directory sb s d → (inodeOf sb t d).addrs 0 = (inodeOf sb s d).addrs 0
  dirOf_eq : ∀ d, Directory sb s d → dirOf sb t d = dirOf sb s d
  blockUsed : ∀ b < sb.size, BlockUsed sb s b → BlockUsed sb t b

section Same

variable {sb : SuperBlock} {s t u : BlockStore} {d i c : Nat}

theorem SameDirs.refl (sb : SuperBlock) (s : BlockStore) : SameDirs sb s s where
  used_iff _ := Iff.rfl
  type_eq _ _ := rfl
  addr_eq _ _ := rfl
  dirOf_eq _ _ := rfl
  blockUsed _ _ h := h

theorem SameDirs.allocated_iff (h : SameDirs sb s t) : Allocated sb t i ↔ Allocated sb s i :=
  ⟨fun hi => ⟨hi.lt, (h.used_iff i).mp hi.used⟩, fun hi => ⟨hi.lt, (h.used_iff i).mpr hi.used⟩⟩

theorem SameDirs.directory_iff (h : SameDirs sb s t) : Directory sb t d ↔ Directory sb s d := by
  constructor
  · intro hd
    exact ⟨h.allocated_iff.mp hd.toAllocated, (h.type_eq d hd.lt).symm.trans hd.isDir⟩
  · intro hd
    exact ⟨h.allocated_iff.mpr hd.toAllocated, (h.type_eq d hd.lt).trans hd.isDir⟩

theorem SameDirs.trans (h : SameDirs sb s t) (h' : SameDirs sb t u) : SameDirs sb s u where
  used_iff i := (h'.used_iff i).trans (h.used_iff i)
  type_eq i hi := (h'.type_eq i hi).trans (h.type_eq i hi)
  addr_eq d hd := (h'.addr_eq d (h.directory_iff.mpr hd)).trans (h.addr_eq d hd)
  dirOf_eq d hd := (h'.dirOf_eq d (h.directory_iff.mpr hd)).trans (h.dirOf_eq d hd)
  blockUsed b hb hused := h'.blockUsed b hb (h.blockUsed b hb hused)

theorem SameDirs.child_iff (h : SameDirs sb s t) : Child sb t d i c ↔ Child sb s d i c := by
  constructor
  · intro ⟨hd, htwo, hlt, hused, hnames⟩
    have hold := h.directory_iff.mp hd
    rw [h.dirOf_eq d hold] at hused hnames
    exact ⟨hold, htwo, hlt, hused, hnames⟩
  · intro ⟨hd, htwo, hlt, hused, hnames⟩
    rw [← h.dirOf_eq d hd] at hused hnames
    exact ⟨h.directory_iff.mpr hd, htwo, hlt, hused, hnames⟩

theorem DirTree.same (h : DirTree sb s) (hsame : SameDirs sb s t) : DirTree sb t where
  tree := by
    have hV : Allocated sb t = Allocated sb s := funext fun i => propext hsame.allocated_iff
    have hE : Child sb t = Child sb s :=
      funext fun d => funext fun i => funext fun c => propext hsame.child_iff
    rw [hV, hE]
    exact h.tree
  root := hsame.directory_iff.mpr h.root
  block d hd := by
    have hold := hsame.directory_iff.mp hd
    obtain ⟨p, hblock, hparent⟩ := h.block d hold
    rw [hsame.dirOf_eq d hold]
    exact ⟨p, hblock, hparent.imp_right fun ⟨i, hi⟩ => ⟨i, hsame.child_iff.mpr hi⟩⟩

theorem OwnBlocks.same (h : OwnBlocks sb s) (hsame : SameDirs sb s t) : OwnBlocks sb t where
  le d hd := by
    have hold := hsame.directory_iff.mp hd
    rw [hsame.addr_eq d hold]
    exact h.le d hold
  used d hd hlt := by
    have hold := hsame.directory_iff.mp hd
    rw [hsame.addr_eq d hold] at hlt ⊢
    exact hsame.blockUsed _ hlt (h.used d hold hlt)
  distinct d e hd he heq := by
    have hold := hsame.directory_iff.mp hd
    have hold' := hsame.directory_iff.mp he
    rw [hsame.addr_eq d hold, hsame.addr_eq e hold'] at heq
    exact h.distinct d e hold hold' heq

end Same

/-! ## A directory goes -/

/-- The directory `c` is empty, and it is not the root. -/
structure Removable (sb : SuperBlock) (s : BlockStore) (c : Nat) : Prop where
  dir : Directory sb s c
  ne_root : c ≠ 0
  empty : ∀ i e, ¬ Child sb s c i e

/-- The last entry of the parent is that of `c`, and the parent is not full. -/
def LastEntry (sb : SuperBlock) (s : BlockStore) (c : Nat) : Prop :=
  ∃ n, Entries (dirOf sb s (parentOf sb s c)) n ∧ n < dentryPerBlock ∧
    entryInodeId (dirOf sb s (parentOf sb s c)) (n - 1) = c

section Removal

variable {sb : SuperBlock} {s s' : BlockStore} {c d e i n : Nat} {undef : RmdirUndef}

/-- The parent of a directory, by the entry `".."`. -/
theorem Removable.parent (h : Removable sb s c) (htree : DirTree sb s) :
    Directory sb s (parentOf sb s c) ∧ parentOf sb s c ≠ c ∧
      ∃ i, Child sb s (parentOf sb s c) i c := by
  obtain ⟨p, hblock, ⟨hzero, _⟩ | ⟨i, hi⟩⟩ := htree.block c h.dir
  · exact absurd hzero h.ne_root
  · have hp : parentOf sb s c = p := hblock.dotDot_inode
    rw [hp]
    refine ⟨hi.dir, ?_, i, hi⟩
    rintro rfl
    exact h.empty i _ hi

/-- No other entry of the parent names the directory. -/
theorem Removable.only (h : Removable sb s c) (htree : DirTree sb s)
    (hi : Child sb s (parentOf sb s c) i c) (hn : Entries (dirOf sb s (parentOf sb s c)) n)
    (hd : d < n) (hnames : entryInodeId (dirOf sb s (parentOf sb s c)) d = c) : d = i := by
  obtain ⟨hp, hpc, _⟩ := h.parent htree
  obtain ⟨q, hblock, hparent⟩ := htree.block _ hp
  have hle := hn.le
  by_cases htwo : 2 ≤ d
  · exact (htree.tree.unique _ d _ i c ⟨hp, htwo, by omega, hn.used d hd, hnames⟩ hi).2
  · exfalso
    obtain rfl | rfl : d = 0 ∨ d = 1 := by omega
    · exact hpc (hblock.dot_inode.symm.trans hnames)
    · have hq : q = c := hblock.dotDot_inode.symm.trans hnames
      subst hq
      rcases hparent with ⟨_, hzero⟩ | ⟨j, hj⟩
      · exact h.ne_root hzero
      · exact h.empty j _ hj

/-- The last entry of the parent goes, and the others stay. -/
structure Unlinked (sb : SuperBlock) (s s' : BlockStore) (c n : Nat) : Prop where
  entries : Entries (dirOf sb s (parentOf sb s c)) n
  three_le : 3 ≤ n
  last : ∀ j < n, entryInodeId (dirOf sb s (parentOf sb s c)) j = c ↔ j = n - 1
  block : dirOf sb s' (parentOf sb s c) =
    Bytes.memset (dirOf sb s (parentOf sb s c)) (64 * ((n - 1 : Nat) : Int)) 0 64

theorem Freed.allocated_iff (hf : Freed sb s s' undef c) :
    Allocated sb s' i ↔ Allocated sb s i ∧ i ≠ c := by
  constructor
  · intro hi
    have hused := (hf.used_iff i).mp hi.used
    exact ⟨⟨hi.lt, hused.1⟩, hused.2⟩
  · intro ⟨hi, hne⟩
    exact ⟨hi.lt, (hf.used_iff i).mpr ⟨hi.used, hne⟩⟩

theorem Freed.directory_iff (hf : Freed sb s s' undef c) :
    Directory sb s' d ↔ Directory sb s d ∧ d ≠ c := by
  have hdir : d < bitsPerBlock → (IsDir sb s' d ↔ IsDir sb s d) := by
    intro hd
    unfold IsDir
    rw [hf.inode_eq d hd]
  constructor
  · intro hd
    obtain ⟨hold, hne⟩ := hf.allocated_iff.mp hd.toAllocated
    exact ⟨⟨hold, (hdir hold.lt).mp hd.isDir⟩, hne⟩
  · intro ⟨hd, hne⟩
    exact ⟨hf.allocated_iff.mpr ⟨hd.toAllocated, hne⟩, (hdir hd.lt).mpr hd.isDir⟩

/-- The directories that are no parent keep their blocks. -/
theorem Freed.dirOf_other (hf : Freed sb s s' undef c) (hown : OwnBlocks sb s)
    (hp : Directory sb s (parentOf sb s c)) (hd : Directory sb s d) (hne : d ≠ parentOf sb s c) :
    dirOf sb s' d = dirOf sb s d := by
  unfold dirOf
  rw [hf.inode_eq d hd.lt]
  apply hf.data_eq _ (hown.le d hd)
  exact fun heq => hne (hown.distinct d _ hd hp heq)

theorem Freed.unlinked (hf : Freed sb s s' undef c) (h : Removable sb s c) (htree : DirTree sb s)
    (hlast : LastEntry sb s c) : ∃ n, Unlinked sb s s' c n := by
  obtain ⟨n, hn, hroom, hnames⟩ := hlast
  obtain ⟨hp, hpc, i, hi⟩ := h.parent htree
  have hin : i < n := hn.lt_of_used hi.lt hi.used
  have htwo := hi.two_le
  have honly := fun j (hj : j < n) => h.only htree hi hn hj
  have hi' : n - 1 = i := honly (n - 1) (by omega) hnames
  refine ⟨n, hn, by omega, ?_, ?_⟩
  · intro j hj
    rw [hi']
    exact ⟨honly j hj, fun heq => heq ▸ hi.names⟩
  · have hblock := hf.parent
    rw [hn.movedDir_eq hroom hi.names hin honly, ← hi', moveEntry, if_pos rfl] at hblock
    have hinode := hf.inode_eq _ hp.lt
    unfold dirOf
    rw [hinode]
    exact hblock

theorem Unlinked.entryPair_eq (hu : Unlinked sb s s' c n) (hi : i < n - 1) :
    entryPair (dirOf sb s' (parentOf sb s c)) i = entryPair (dirOf sb s (parentOf sb s c)) i := by
  rw [hu.block]
  exact hu.entries.entryPair_clearEntry (by omega) (by omega)

/-- The parent has the entries but for the last one. -/
theorem Unlinked.entry_iff (hu : Unlinked sb s s' c n) (hi : i < dentryPerBlock) :
    entryEmpty (dirOf sb s' (parentOf sb s c)) i = false ∧
        entryInodeId (dirOf sb s' (parentOf sb s c)) i = e ↔
      (entryEmpty (dirOf sb s (parentOf sb s c)) i = false ∧
        entryInodeId (dirOf sb s (parentOf sb s c)) i = e) ∧ e ≠ c := by
  have hthree := hu.three_le
  by_cases hlt : i < n - 1
  · have hused := hu.entries.used i (by omega)
    have hused' : entryEmpty (dirOf sb s' (parentOf sb s c)) i = false := by
      rw [hu.block, entryEmpty_clearEntry_of_ne (by omega), hused]
    rw [(Prod.mk.inj (hu.entryPair_eq hlt)).2, hused, hused']
    refine ⟨fun hnames => ⟨hnames, fun hec => ?_⟩, fun hnames => hnames.1⟩
    have hlast := (hu.last i (by omega)).mp (hnames.2.trans hec)
    omega
  · apply iff_of_false
    · intro ⟨hused, _⟩
      rw [hu.block] at hused
      by_cases hin : i = n - 1
      · rw [hin, entryEmpty_clearEntry (by omega)] at hused
        cases hused
      · rw [entryEmpty_clearEntry_of_ne hin, hu.entries.empty i (by omega) hi] at hused
        cases hused
    · intro ⟨⟨hused, he⟩, hne⟩
      have hin := hu.entries.lt_of_used hi hused
      have hlast := (hu.last i hin).mpr (by omega)
      exact hne (he.symm.trans hlast)

theorem Freed.child_iff (hf : Freed sb s s' undef c) (h : Removable sb s c) (htree : DirTree sb s)
    (hown : OwnBlocks sb s) (hu : Unlinked sb s s' c n) :
    Child sb s' d i e ↔ Child sb s d i e ∧ e ≠ c := by
  obtain ⟨hp, hpc, k, hk⟩ := h.parent htree
  by_cases hdp : d = parentOf sb s c
  · subst hdp
    constructor
    · intro ⟨_, htwo, hlt, hused, hnames⟩
      obtain ⟨⟨hold, hnames'⟩, hne⟩ := (hu.entry_iff hlt).mp ⟨hused, hnames⟩
      exact ⟨⟨hp, htwo, hlt, hold, hnames'⟩, hne⟩
    · intro ⟨⟨_, htwo, hlt, hused, hnames⟩, hne⟩
      obtain ⟨hnew, hnames'⟩ := (hu.entry_iff hlt).mpr ⟨⟨hused, hnames⟩, hne⟩
      exact ⟨hf.directory_iff.mpr ⟨hp, hpc⟩, htwo, hlt, hnew, hnames'⟩
  · constructor
    · intro ⟨hd, htwo, hlt, hused, hnames⟩
      have hold := (hf.directory_iff.mp hd).1
      rw [hf.dirOf_other hown hp hold hdp] at hused hnames
      have hchild : Child sb s d i e := ⟨hold, htwo, hlt, hused, hnames⟩
      refine ⟨hchild, ?_⟩
      rintro rfl
      exact hdp (htree.tree.unique d i _ k e hchild hk).1
    · intro ⟨hchild, hne⟩
      have hdc : d ≠ c := by
        rintro rfl
        exact h.empty i e hchild
      obtain ⟨hd, htwo, hlt, hused, hnames⟩ := hchild
      rw [← hf.dirOf_other hown hp hd hdp] at hused hnames
      exact ⟨hf.directory_iff.mpr ⟨hd, hdc⟩, htwo, hlt, hused, hnames⟩

/-- The parent still begins with `"."` and `".."`. -/
theorem Unlinked.dirBlock (hu : Unlinked sb s s' c n) {p : Nat}
    (h : DirBlock (dirOf sb s (parentOf sb s c)) d p) :
    DirBlock (dirOf sb s' (parentOf sb s c)) d p := by
  have hthree := hu.three_le
  have hremoved := hu.entries.removed_last hthree
  rw [← hu.block] at hremoved
  obtain ⟨hdot, hdot'⟩ := Prod.mk.inj (hremoved.dots 0 (by decide))
  obtain ⟨hdotDot, hdotDot'⟩ := Prod.mk.inj (hremoved.dots 1 (by decide))
  exact ⟨⟨n - 1, by omega, hremoved.entries⟩, hdot.trans h.dot_name, hdot'.trans h.dot_inode,
    hdotDot.trans h.dotDot_name, hdotDot'.trans h.dotDot_inode⟩

/-- The removal of an empty directory deletes a leaf. -/
theorem DirTree.removed (htree : DirTree sb s) (hown : OwnBlocks sb s) (h : Removable sb s c)
    (hf : Freed sb s s' undef c) (hu : Unlinked sb s s' c n) : DirTree sb s' where
  tree := htree.tree.removeLeaf h.ne_root h.empty (fun _ => hf.allocated_iff)
    fun _ _ _ => hf.child_iff h htree hown hu
  root := hf.directory_iff.mpr ⟨htree.root, h.ne_root.symm⟩
  block d hd := by
    obtain ⟨hold, hne⟩ := hf.directory_iff.mp hd
    obtain ⟨p, hblock, hparent⟩ := htree.block d hold
    refine ⟨p, ?_, hparent.imp_right fun ⟨i, hi⟩ =>
      ⟨i, (hf.child_iff h htree hown hu).mpr ⟨hi, hne⟩⟩⟩
    by_cases hdp : d = parentOf sb s c
    · subst hdp
      exact hu.dirBlock hblock
    · rw [hf.dirOf_other hown (h.parent htree).1 hold hdp]
      exact hblock

theorem OwnBlocks.removed (hown : OwnBlocks sb s) (hc : Directory sb s c)
    (hf : Freed sb s s' undef c) (hfreed : freedBlock sb s c = (inodeOf sb s c).addrs 0) :
    OwnBlocks sb s' where
  le d hd := by
    have hold := (hf.directory_iff.mp hd).1
    rw [hf.inode_eq d hold.lt]
    exact hown.le d hold
  used d hd hlt := by
    obtain ⟨hold, hne⟩ := hf.directory_iff.mp hd
    rw [hf.inode_eq d hold.lt] at hlt ⊢
    refine (hf.blockUsed_iff _ hlt).mpr ⟨hown.used d hold hlt, ?_⟩
    rw [hfreed]
    exact fun heq => hne (hown.distinct d c hold hc heq)
  distinct d e hd he heq := by
    have hold := (hf.directory_iff.mp hd).1
    have hold' := (hf.directory_iff.mp he).1
    rw [hf.inode_eq d hold.lt, hf.inode_eq e hold'.lt] at heq
    exact hown.distinct d e hold hold' heq

end Removal

end MipsOs.Fs
