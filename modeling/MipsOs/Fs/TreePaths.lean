import MipsOs.Fs.DirTree
import MipsOs.Fs.NewStore

/-!
# Paths in the tree of directories

A creation makes its name a path from the parent, and it keeps every path that
led somewhere.  The second is an induction over the walk: each step searches a
directory block that is the old one, or the old one with an entry at the end.
-/

namespace MipsOs.Fs

open MipsOs.Lib MipsOs.Lib.BlockProg

/-! ## What entries name -/

section Walk

variable {sb : SuperBlock} {s s' : BlockStore} {d fa n inodeId : Nat} {name : CString}
  {newBlock : Option Nat} {w : Walk} {rest : List UInt8}

/-- Every entry names an allocated inode. -/
theorem DirTree.names_allocated (h : DirTree sb s) (hd : Directory sb s d) {i : Nat}
    (hi : i < dentryPerBlock) (hused : entryEmpty (dirOf sb s d) i = false) :
    Allocated sb s (entryInodeId (dirOf sb s d) i) := by
  obtain ⟨p, hblock, hparent⟩ := h.block d hd
  by_cases hzero : i = 0
  · rw [hzero, hblock.dot_inode]
    exact hd.toAllocated
  by_cases hone : i = 1
  · rw [hone, hblock.dotDot_inode]
    rcases hparent with ⟨_, hp⟩ | ⟨j, hchild⟩
    · rw [hp]
      exact h.root.toAllocated
    · exact hchild.dir.toAllocated
  · exact (h.tree.mem d i _ ⟨hd, by omega, hi, hused, rfl⟩).2

/-- The number of an allocated inode is the same as an `int`. -/
theorem Allocated.asInt_eq (h : Allocated sb s d) : asInt d = d := by
  have hlt := h.lt
  simp only [bitsPerBlock, blockSize] at hlt
  exact asInt_of_lt (by omega)

theorem Allocated.asUint_eq (h : Allocated sb s d) : asUint d = d := by
  have hlt := h.lt
  simp only [bitsPerBlock, blockSize] at hlt
  unfold asUint
  omega

/-- One component leads from a directory to an allocated inode. -/
theorem DirTree.next_allocated (h : DirTree sb s) (hd : Directory sb s d) (hw : w.inodeId = d) :
    ∃ e : Nat, (w.next sb s rest).inodeId = e ∧ Allocated sb s e := by
  unfold Walk.next Walk.search lookup
  rw [hw]
  cases hfound : lookupFrom (dirOf sb s d) (firstName rest) dentryPerBlock 0 with
  | found i =>
    obtain ⟨_, hlt, hname⟩ := lookupFrom_found hfound
    have hentry := h.names_allocated hd (by omega) hname
    exact ⟨_, hentry.asInt_eq, hentry⟩
  | missing => exact ⟨d, rfl, hd.toAllocated⟩
  | full => exact ⟨d, rfl, hd.toAllocated⟩

/-- A walk from an allocated inode leads to allocated inodes. -/
theorem DirTree.walkOn_allocated (h : DirTree sb s) (m : Nat) (hd : Allocated sb s d)
    (hw : w.inodeId = d) :
    ∃ e : Nat, (walkOn sb s m rest w).inodeId = e ∧ Allocated sb s e := by
  induction m generalizing rest w d with
  | zero => exact ⟨d, hw, hd⟩
  | succ m ih =>
    unfold walkOn
    by_cases hrest : rest = []
    · rw [if_pos hrest]
      exact ⟨d, hw, hd⟩
    rw [if_neg hrest]
    by_cases hdir : IsDir sb s w.inodeId
    · rw [if_neg (not_not.mpr hdir)]
      have hnext : ∃ e : Nat, (w.next sb s rest).inodeId = e ∧ Allocated sb s e :=
        h.next_allocated ⟨hd, hw ▸ hdir⟩ hw
      split
      · exact hnext
      · obtain ⟨e, he, halloc⟩ := hnext
        exact ih halloc he
    · rw [if_pos hdir]
      exact ⟨d, hw, hd⟩

theorem DirTree.pathOn_allocated (h : DirTree sb s) (hd : Allocated sb s d) (path : CString) :
    ∃ e : Nat, (pathOn sb s d path).inodeId = e ∧ Allocated sb s e := by
  unfold pathOn walkStart
  by_cases hroot : path.bytes.head? = some slash
  · rw [if_pos hroot]
    exact h.walkOn_allocated _ h.root.toAllocated rfl
  · rw [if_neg hroot]
    exact h.walkOn_allocated _ hd rfl

/-- A search that found a name finds the same entry with one more entry at the
end. -/
theorem Walk.search_setEntry {dir : Block} {nm : CString} (hn : Entries dir n)
    (hlt : n < dentryPerBlock) (hne : name.bytes ≠ []) (hshort : name.strlen < maxName)
    (hfresh : ∀ i < n, entryName dir i ≠ name) (hok : (w.search dir nm).error = false) :
    w.search (setEntry dir n name.bytes inodeId) nm = w.search dir nm := by
  by_cases hex : ∃ i < n, entryName dir i = nm
  · obtain ⟨i, hi, hname⟩ := hex
    have hsame : entryName (setEntry dir n name.bytes inodeId) i = entryName dir i :=
      entryName_setEntry_of_ne hshort (by omega) (by omega) (hn.short i hi)
    have hentries : Entries (setEntry dir n name.bytes inodeId) (n + 1) :=
      hn.setEntry hlt hne hshort hfresh
    unfold Walk.search
    rw [hn.lookup_found hi hname, hentries.lookup_found (by omega) (hsame.trans hname)]
    dsimp only
    rw [entryInodeId_setEntry_of_ne hshort (by omega), hsame]
  · have hother : ∀ i < n, entryName dir i ≠ nm := fun i hi heq => hex ⟨i, hi, heq⟩
    unfold Walk.search at hok
    rw [hn.lookup_missing hlt hother] at hok
    cases hok

/-- One component leads where it led. -/
theorem Created.next_kept (hc : Created sb s s' fa n name inodeId newBlock)
    (hown : OwnBlocks sb s) (hname : NewName sb s fa n name) (hd : Directory sb s d)
    (hw : w.inodeId = d) (hok : (w.next sb s rest).error = false) :
    w.next sb s' rest = w.next sb s rest := by
  unfold Walk.next at hok ⊢
  rw [hw] at hok ⊢
  by_cases hfa : d = fa
  · subst hfa
    rw [hc.dirOf_parent hd]
    exact Walk.search_setEntry hname.entries hname.lt hname.nonempty hname.short hname.fresh hok
  · rw [hc.dirOf_old hown hname.dir hd hfa]

/-- A walk that came to no error goes the same way after a creation. -/
theorem Created.walkOn_kept (hc : Created sb s s' fa n name inodeId newBlock)
    (h : DirTree sb s) (hown : OwnBlocks sb s) (hname : NewName sb s fa n name) (m : Nat)
    (hd : Allocated sb s d) (hw : w.inodeId = d) (hok : (walkOn sb s m rest w).error = false) :
    walkOn sb s' m rest w = walkOn sb s m rest w := by
  induction m generalizing rest w d with
  | zero => rfl
  | succ m ih =>
    unfold walkOn at hok ⊢
    by_cases hrest : rest = []
    · rw [if_pos hrest, if_pos hrest]
    rw [if_neg hrest] at hok
    rw [if_neg hrest, if_neg hrest]
    have hsame : IsDir sb s' w.inodeId ↔ IsDir sb s w.inodeId := by
      rw [hw]
      exact hc.isDir_old hd
    by_cases hdir : IsDir sb s w.inodeId
    · rw [if_neg (not_not.mpr hdir)] at hok
      rw [if_neg (not_not.mpr hdir), if_neg (not_not.mpr (hsame.mpr hdir))]
      have hdirectory : Directory sb s d := ⟨hd, hw ▸ hdir⟩
      have hnext : (w.next sb s rest).error = false := by
        by_contra herror
        rw [if_pos (.inl (by simpa using herror))] at hok
        exact herror hok
      rw [hc.next_kept hown hname hdirectory hw hnext]
      by_cases hstop : (w.next sb s rest).error = true ∨ (w.next sb s rest).isEnd = true
      · rw [if_pos hstop, if_pos hstop]
      · rw [if_neg hstop] at hok
        rw [if_neg hstop, if_neg hstop]
        obtain ⟨e, he, halloc⟩ : ∃ e : Nat, (w.next sb s rest).inodeId = e ∧ Allocated sb s e :=
          h.next_allocated hdirectory hw
        exact ih halloc he hok
    · rw [if_pos hdir] at hok
      cases hok

/-- A path that led somewhere leads there after a creation. -/
theorem Created.pathOn_kept (hc : Created sb s s' fa n name inodeId newBlock)
    (h : DirTree sb s) (hown : OwnBlocks sb s) (hname : NewName sb s fa n name)
    (hd : Allocated sb s d) {path : CString} (hok : (pathOn sb s d path).error = false) :
    pathOn sb s' d path = pathOn sb s d path := by
  unfold pathOn walkStart at hok ⊢
  by_cases hroot : path.bytes.head? = some slash
  · rw [if_pos hroot] at hok ⊢
    exact hc.walkOn_kept h hown hname _ h.root.toAllocated rfl hok
  · rw [if_neg hroot] at hok ⊢
    exact hc.walkOn_kept h hown hname _ hd rfl hok

/-- The new name leads from the parent to the new inode. -/
theorem Created.pathOn_new (hc : Created sb s s' fa n name inodeId newBlock)
    (hname : NewName sb s fa n name) (hslash : slash ∉ name.bytes) :
    (pathOn sb s' fa name).error = false ∧ (pathOn sb s' fa name).inodeId = inodeId := by
  have halloc : Allocated sb s' inodeId := hc.allocated_iff.mpr (.inr rfl)
  have hdir : IsDir sb s' fa := (hc.isDir_old hname.dir.toAllocated).mpr hname.dir.isDir
  have hword : inodeId < 2 ^ 32 := by
    have hlt := hc.lt
    simp only [bitsPerBlock, blockSize] at hlt
    omega
  have hne : ∀ c ∈ name.bytes, (decide (c ≠ slash)) = true := by
    intro c hmem
    rw [decide_eq_true_iff]
    rintro rfl
    exact hslash hmem
  have hhead : name.bytes.head? ≠ some slash := fun heq => hslash (List.mem_of_head? heq)
  have hfirst : firstName name.bytes = name := by
    apply CString.ext_bytes
    show (name.bytes.takeWhile (· ≠ slash)).takeWhile (· ≠ 0) = name.bytes
    rw [List.takeWhile_eq_self_iff.mpr hne, List.takeWhile_eq_self_iff]
    intro c hmem
    rw [decide_eq_true_iff]
    rintro rfl
    exact name.nonzero hmem
  have hend : afterSlash name.bytes = none := by
    unfold afterSlash
    rw [List.dropWhile_eq_nil_iff.mpr hne]
  have hentry : entryName (setEntry (dirOf sb s fa) n name.bytes inodeId) n = name :=
    entryName_setEntry hname.lt hname.short
  have hentries : Entries (setEntry (dirOf sb s fa) n name.bytes inodeId) (n + 1) :=
    hname.entries.setEntry hname.lt hname.nonempty hname.short hname.fresh
  have hnext : ({ inodeId := fa, error := false, isEnd := false, dirName := none } : Walk).next sb
      s' name.bytes =
        { inodeId := inodeId, error := false, isEnd := true, dirName := some name } := by
    unfold Walk.next Walk.search
    dsimp only
    rw [hfirst, hc.dirOf_parent hname.dir, hentries.lookup_found (Nat.lt_succ_self n) hentry]
    dsimp only
    rw [hentry, hend, entryInodeId_setEntry hname.lt hword, halloc.asInt_eq]
    rfl
  obtain ⟨m, hm⟩ := Nat.exists_eq_succ_of_ne_zero
    (show name.bytes.length ≠ 0 from fun h => hname.nonempty (List.length_eq_zero_iff.mp h))
  have hpath : pathOn sb s' fa name =
      { inodeId := inodeId, error := false, isEnd := true, dirName := some name } := by
    unfold pathOn walkStart
    rw [if_neg hhead]
    dsimp only
    rw [hm, walkOn, if_neg hname.nonempty, if_neg (not_not.mpr hdir), hnext, if_pos (.inr rfl)]
  rw [hpath]
  exact ⟨rfl, rfl⟩

/-! ## `do_find` -/

/-- `do_find` of the new name answers the new inode. -/
theorem Created.doFind_new (hc : Created sb s s' fa n name inodeId newBlock)
    (hname : NewName sb s fa n name)
    (hslash : slash ∉ name.bytes) (unread : List (Option Block)) :
    ((doFind sb fa name).flat unread s').1 = inodeId := by
  obtain ⟨herror, hinode⟩ := hc.pathOn_new hname hslash
  have halloc : Allocated sb s' inodeId := hc.allocated_iff.mpr (.inr rfl)
  rw [doFind_flat, herror, hinode]
  exact halloc.asUint_eq

/-- `do_find` answers what it answered. -/
theorem Created.doFind_kept (hc : Created sb s s' fa n name inodeId newBlock) (htree : DirTree sb s)
    (hown : OwnBlocks sb s) (hname : NewName sb s fa n name) (hd : Allocated sb s d)
    {path : CString} {unread : List (Option Block)}
    (hok : ((doFind sb d path).flat unread s).1 ≠ asUint (-1)) :
    ((doFind sb d path).flat unread s').1 = ((doFind sb d path).flat unread s).1 := by
  rw [doFind_flat] at hok
  have herror : (pathOn sb s d path).error = false := by
    by_contra herr
    rw [Bool.not_eq_false] at herr
    rw [herr] at hok
    exact hok rfl
  rw [doFind_flat, doFind_flat, hc.pathOn_kept htree hown hname hd herror]

end Walk

end MipsOs.Fs
