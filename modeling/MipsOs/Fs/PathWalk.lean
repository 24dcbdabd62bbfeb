import MipsOs.Fs.Calls

/-!
# Paths over a flat store

`do_find`, `do_find_dir` and `do_cd` go through the components of a path with
loops of their own.  They are the same but for the name that `do_cd` copies
(`findFrom_eq`, `findDirFrom_eq`), so what holds of the walk of `do_cd` holds of
all three (`doFind_eq`, `doFindDir_eq`).

Over a flat store the loop is a function of the content (`walkOn`), and it
changes nothing.

`path_walkers_agree` is the result: `do_find_dir` answers the inode of
`do_find` when that is a directory and -1 when it is not, and `do_cd` moves to
the answer of `do_find_dir`, or stays.
-/

namespace MipsOs.Fs

open MipsOs.Lib MipsOs.Lib.BlockProg

/-- The blocks of the partition, without a cache. -/
abbrev BlockStore : Type := Nat → Block

/-! ## The three loops -/

section Loops

variable {sb : SuperBlock}

/-- The search of a directory block in `do_cd`, without the name. -/
theorem Walk.search_toFind (w : Walk) (dir : Block) (name : CString) :
    (w.search dir name).toFind = w.toFind.search dir name := by
  unfold Walk.search Find.search
  cases lookup dir name <;> rfl

/-- The loop of `do_find` is the one of `do_cd`, without the name. -/
theorem findFrom_eq (n : Nat) (rest : List UInt8) (w : Walk) :
    findFrom sb n rest w.toFind = (walkFrom sb n rest w >>= fun w => pure w.toFind) := by
  induction n generalizing rest w with
  | zero => rfl
  | succ n ih =>
    unfold findFrom walkFrom
    by_cases hrest : rest = []
    · rw [if_pos hrest, if_pos hrest]
      rfl
    rw [if_neg hrest, if_neg hrest]
    simp only [bind_assoc]
    refine bind_congr fun inodeBlock => bind_congr fun inode => ?_
    split
    · rfl
    simp only [bind_assoc]
    refine bind_congr fun dirBlock => bind_congr fun dir => ?_
    rw [← Walk.search_toFind { w with isEnd := afterSlash rest = none }]
    split
    · rfl
    · simp only [bind_assoc, ih]

/-- `do_find_dir` has the loop of `do_find`. -/
theorem findDirFrom_eq (n : Nat) (rest : List UInt8) (w : Find) :
    findDirFrom sb n rest w = findFrom sb n rest w := by
  induction n generalizing rest w with
  | zero => rfl
  | succ n ih => simp only [findDirFrom, findFrom, ih]

theorem pathStart_eq (curDirInode : Int) (path : CString) :
    pathStart curDirInode path =
      ((walkStart curDirInode path).1.toFind, (walkStart curDirInode path).2) := by
  unfold pathStart walkStart
  split <;> rfl

/-- `do_find` answers the inode of the walk. -/
theorem doFind_eq (curDirInode : Int) (path : CString) :
    doFind sb curDirInode path = (do
      let w ← walk sb curDirInode path
      return if w.error then asUint (-1) else asUint w.inodeId) := by
  unfold doFind walk
  simp only [pathStart_eq, findFrom_eq, bind_assoc, pure_bind]

/-- `do_find_dir` answers the inode of the walk when it is a directory. -/
theorem doFindDir_eq (curDirInode : Int) (path : CString) :
    doFindDir sb curDirInode path = (do
      let w ← walk sb curDirInode path
      let noDir ← checkDir sb w.inodeId
      return if w.error || noDir then asUint (-1) else asUint w.inodeId) := by
  unfold doFindDir walk
  simp only [pathStart_eq, findDirFrom_eq, findFrom_eq, bind_assoc, pure_bind]

end Loops

/-! ## The walk -/

section Walk

variable (sb : SuperBlock) (s : BlockStore)

/-- The inode `inodeId`. -/
def inodeOf (inodeId : Int) : Inode := inodeAt (s (inodeInBlock sb inodeId)) (inodeOffset inodeId)

/-- The inode `inodeId` is a directory. -/
def IsDir (inodeId : Int) : Prop := (inodeOf sb s inodeId).type = typeDir

instance (inodeId : Int) : Decidable (IsDir sb s inodeId) := inferInstanceAs (Decidable (_ = _))

/-- The directory block of the inode. -/
def dirOf (inodeId : Int) : Block := s ((inodeOf sb s inodeId).addrs 0)

/-- The walk after the search of a directory for the next component. -/
def Walk.next (w : Walk) (rest : List UInt8) : Walk :=
  { w with isEnd := afterSlash rest = none }.search (dirOf sb s w.inodeId) (firstName rest)

/-- The loop over the components of a path, as a function of the store. -/
def walkOn : Nat → List UInt8 → Walk → Walk
  | 0, _, w => w
  | n + 1, rest, w =>
    if rest = [] then w
    else if ¬ IsDir sb s w.inodeId then
      { w with isEnd := afterSlash rest = none, error := true }
    else if (w.next sb s rest).error ∨ (w.next sb s rest).isEnd then w.next sb s rest
    else walkOn n ((afterSlash rest).getD []) (w.next sb s rest)

/-- Where a path leads. -/
def pathOn (curDirInode : Int) (path : CString) : Walk :=
  walkOn sb s (walkStart curDirInode path).2.length (walkStart curDirInode path).2
    (walkStart curDirInode path).1

/-- The inodes that directory entries lead to, from the root or the current
directory. -/
inductive Linked (curDirInode : Int) : Int → Prop where
  | root : Linked curDirInode 0
  | cur : Linked curDirInode curDirInode
  | entry (inodeId : Int) (i : Nat) (h : Linked curDirInode inodeId)
      (hdir : IsDir sb s inodeId) (hi : i < dentryPerBlock)
      (hname : entryEmpty (dirOf sb s inodeId) i = false) :
      Linked curDirInode (entryInodeId (dirOf sb s inodeId) i)

/-- Directory entries name inodes of the bitmap. -/
def EntriesBelow (curDirInode : Int) : Prop :=
  ∀ inodeId, Linked sb s curDirInode inodeId → IsDir sb s inodeId →
    ∀ i, i < dentryPerBlock → entryEmpty (dirOf sb s inodeId) i = false →
      entryInodeId (dirOf sb s inodeId) i < bitsPerBlock

variable {sb s}

/-- The loop of the source computes `walkOn`. -/
theorem walkFrom_flat (n : Nat) (rest : List UInt8) (w : Walk) (unread : List (Option Block)) :
    (walkFrom sb n rest w).flat unread s = (walkOn sb s n rest w, unread, s) := by
  induction n generalizing rest w with
  | zero => rfl
  | succ n ih =>
    unfold walkFrom walkOn
    by_cases hrest : rest = []
    · rw [if_pos hrest, if_pos hrest]
      rfl
    rw [if_neg hrest, if_neg hrest]
    show BlockProg.flat (if ¬ IsDir sb s w.inodeId then _ else _) unread s = _
    by_cases hdir : IsDir sb s w.inodeId
    · rw [if_neg (not_not.mpr hdir), if_neg (not_not.mpr hdir)]
      show BlockProg.flat (if (w.next sb s rest).error ∨ (w.next sb s rest).isEnd then _ else _)
        unread s = _
      by_cases hstop : (w.next sb s rest).error ∨ (w.next sb s rest).isEnd
      · rw [if_pos hstop, if_pos hstop]
        rfl
      · rw [if_neg hstop, if_neg hstop]
        exact ih _ _
    · rw [if_pos hdir, if_pos hdir]
      rfl

theorem walk_flat (curDirInode : Int) (path : CString) (unread : List (Option Block)) :
    (walk sb curDirInode path).flat unread s = (pathOn sb s curDirInode path, unread, s) :=
  walkFrom_flat _ _ _ _

theorem checkDir_flat (inodeId : Int) (unread : List (Option Block)) :
    (checkDir sb inodeId).flat unread s = (!decide (IsDir sb s inodeId), unread, s) := by
  show (decide (¬ IsDir sb s inodeId), unread, s) = _
  rw [decide_not]

theorem doFind_flat (curDirInode : Int) (path : CString) (unread : List (Option Block)) :
    (doFind sb curDirInode path).flat unread s =
      (if (pathOn sb s curDirInode path).error then asUint (-1)
        else asUint (pathOn sb s curDirInode path).inodeId, unread, s) := by
  simp only [doFind_eq, flat_bind, walk_flat, flat_pure]

theorem doFindDir_flat (curDirInode : Int) (path : CString) (unread : List (Option Block)) :
    (doFindDir sb curDirInode path).flat unread s =
      (if (pathOn sb s curDirInode path).error = false ∧
          IsDir sb s (pathOn sb s curDirInode path).inodeId then
        asUint (pathOn sb s curDirInode path).inodeId else asUint (-1), unread, s) := by
  simp only [doFindDir_eq, flat_bind, walk_flat, checkDir_flat, flat_pure]
  by_cases hdir : IsDir sb s (pathOn sb s curDirInode path).inodeId
  · cases (pathOn sb s curDirInode path).error <;> simp [hdir]
  · simp [hdir]

theorem doCd_flat (undefName : CString) (cur : CurDir) (path : CString)
    (unread : List (Option Block)) :
    (doCd sb undefName cur path).flat unread s =
      (if (pathOn sb s cur.inode path).error = false ∧
          IsDir sb s (pathOn sb s cur.inode path).inodeId then
        cur.change undefName (pathOn sb s cur.inode path) else cur, unread, s) := by
  simp only [doCd, flat_bind, walk_flat, checkDir_flat, flat_pure]
  by_cases hdir : IsDir sb s (pathOn sb s cur.inode path).inodeId
  · cases herror : (pathOn sb s cur.inode path).error <;> simp [hdir, CurDir.change, herror]
  · simp [hdir, CurDir.change]

/-! ## The inode of a walk -/

variable {curDirInode : Int}

variable (sb s) in
/-- The walk stands at an inode of the bitmap that entries lead to. -/
structure Walk.Below (curDirInode : Int) (w : Walk) : Prop where
  nonneg : 0 ≤ w.inodeId
  lt : w.inodeId < bitsPerBlock
  linked : Linked sb s curDirInode w.inodeId

theorem lookupFrom_found {dir : Block} {name : CString} {n i j : Nat}
    (h : lookupFrom dir name n i = .found j) :
    i ≤ j ∧ j < i + n ∧ entryEmpty dir j = false := by
  induction n generalizing i with
  | zero => cases h
  | succ n ih =>
    unfold lookupFrom at h
    split at h
    · cases h
    · rename_i hempty
      split at h
      · obtain rfl := Lookup.found.inj h
        exact ⟨le_rfl, by omega, by simpa using hempty⟩
      · obtain ⟨hle, hlt, hj⟩ := ih h
        exact ⟨by omega, by omega, hj⟩

/-- A number below 2^31 is itself as an `int`. -/
theorem asInt_of_lt {n : Nat} (h : n < 2 ^ 31) : asInt n = n := by
  unfold asInt
  rw [Int.bmod_def]
  omega

/-- One component leads to an inode of the bitmap. -/
theorem Walk.Below.next {w : Walk} (h : w.Below sb s curDirInode)
    (hentries : EntriesBelow sb s curDirInode) (hdir : IsDir sb s w.inodeId)
    (rest : List UInt8) : (w.next sb s rest).Below sb s curDirInode := by
  unfold Walk.next Walk.search lookup
  cases hfound : lookupFrom (dirOf sb s w.inodeId) (firstName rest) dentryPerBlock 0 with
  | found i =>
    obtain ⟨_, hlt, hname⟩ := lookupFrom_found hfound
    have hi : i < dentryPerBlock := by omega
    have hbelow := hentries _ h.linked hdir i hi hname
    have hbits : bitsPerBlock < 2 ^ 31 := by decide
    have hsame : asInt (entryInodeId (dirOf sb s w.inodeId) i) =
        entryInodeId (dirOf sb s w.inodeId) i := asInt_of_lt (by omega)
    constructor
    · show 0 ≤ asInt _
      rw [hsame]
      omega
    · show asInt _ < _
      rw [hsame]
      exact_mod_cast hbelow
    · show Linked sb s curDirInode (asInt _)
      rw [hsame]
      exact .entry _ i h.linked hdir hi hname
  | missing => exact ⟨h.nonneg, h.lt, h.linked⟩
  | full => exact ⟨h.nonneg, h.lt, h.linked⟩

theorem Walk.Below.walkOn {w : Walk} (h : w.Below sb s curDirInode)
    (hentries : EntriesBelow sb s curDirInode) (n : Nat) (rest : List UInt8) :
    (walkOn sb s n rest w).Below sb s curDirInode := by
  induction n generalizing rest w with
  | zero => exact h
  | succ n ih =>
    unfold MipsOs.Fs.walkOn
    split
    · exact h
    · split
      · exact ⟨h.nonneg, h.lt, h.linked⟩
      · rename_i hdir
        have hnext := h.next hentries (not_not.mp hdir) rest
        split
        · exact hnext
        · exact ih hnext _

theorem pathOn_below (hentries : EntriesBelow sb s curDirInode) (hpos : 0 ≤ curDirInode)
    (hlt : curDirInode < bitsPerBlock) (path : CString) :
    (pathOn sb s curDirInode path).Below sb s curDirInode := by
  apply Walk.Below.walkOn _ hentries
  unfold walkStart
  split
  · exact ⟨le_rfl, show (0 : Int) < bitsPerBlock by decide, .root⟩
  · exact ⟨hpos, hlt, .cur⟩

theorem asUint_below {w : Walk} (h : w.Below sb s curDirInode) :
    (asUint w.inodeId : Int) = w.inodeId := by
  have hbits : (bitsPerBlock : Int) < 2 ^ 32 := by decide
  have hpos := h.nonneg
  have hlt := h.lt
  unfold asUint
  omega

/-- No inode of the bitmap has the number of the error. -/
theorem asUint_ne_error {w : Walk} (h : w.Below sb s curDirInode) :
    asUint w.inodeId ≠ asUint (-1) := by
  have hcast := asUint_below h
  have hbits : (bitsPerBlock : Int) < 2 ^ 32 - 1 := by decide
  have herror : (asUint (-1) : Int) = 2 ^ 32 - 1 := by decide
  have hlt := h.lt
  intro heq
  rw [heq, herror] at hcast
  omega

/-- `do_find_dir` answers the inode of `do_find` when it is a directory, and -1
otherwise.  `do_cd` goes where `do_find_dir` leads, and stays when there is no
directory.  None of them changes a block. -/
theorem path_walkers_agree (cur : CurDir) (hentries : EntriesBelow sb s cur.inode)
    (hpos : 0 ≤ cur.inode) (hlt : cur.inode < bitsPerBlock) (undefName path : CString)
    (unread : List (Option Block)) :
    (∀ r : Nat, r ≠ asUint (-1) →
      (((doFindDir sb cur.inode path).flat unread s).1 = r ↔
        ((doFind sb cur.inode path).flat unread s).1 = r ∧ IsDir sb s r)) ∧
    ((¬ ∃ r : Nat, r ≠ asUint (-1) ∧ ((doFind sb cur.inode path).flat unread s).1 = r ∧
        IsDir sb s r) → ((doFindDir sb cur.inode path).flat unread s).1 = asUint (-1)) ∧
    (∀ r : Nat, r ≠ asUint (-1) → ((doFindDir sb cur.inode path).flat unread s).1 = r →
      ((doCd sb undefName cur path).flat unread s).1.inode = r) ∧
    (((doFindDir sb cur.inode path).flat unread s).1 = asUint (-1) →
      ((doCd sb undefName cur path).flat unread s).1 = cur) ∧
    ((doFind sb cur.inode path).flat unread s).2.2 = s ∧
    ((doFindDir sb cur.inode path).flat unread s).2.2 = s ∧
    ((doCd sb undefName cur path).flat unread s).2.2 = s := by
  have hbelow := pathOn_below hentries hpos hlt path
  have hcast := asUint_below hbelow
  have hne := asUint_ne_error hbelow
  rw [doFind_flat, doFindDir_flat, doCd_flat]
  dsimp only
  generalize pathOn sb s cur.inode path = w at hbelow hcast hne
  by_cases hok : w.error = false ∧ IsDir sb s w.inodeId
  · have hfind : (if w.error then asUint (-1) else asUint w.inodeId) = asUint w.inodeId := by
      rw [hok.1]
      rfl
    rw [if_pos hok, if_pos hok, hfind]
    refine ⟨fun r _ => ?_, fun hnone => ?_, fun r _ hr => ?_, fun herr => absurd herr hne,
      rfl, rfl, rfl⟩
    · constructor
      · intro hr
        rw [← hr, hcast]
        exact ⟨rfl, hok.2⟩
      · exact fun h => h.1
    · apply absurd _ hnone
      refine ⟨_, hne, rfl, ?_⟩
      rw [hcast]
      exact hok.2
    · rw [← hr, hcast]
      simp only [CurDir.change, hok.1]
      split
      · cases ‹_›
      · split
        · rename_i hroot
          exact hroot.symm
        · rfl
  · rw [if_neg hok, if_neg hok]
    refine ⟨fun r hr => ?_, fun _ => rfl, fun r hr herr => absurd herr.symm hr, fun _ => rfl,
      rfl, rfl, rfl⟩
    apply iff_of_false (fun herr => hr herr.symm)
    intro h
    apply hok
    cases herror : w.error with
    | true =>
      rw [herror] at h
      exact absurd h.1.symm hr
    | false =>
      rw [herror] at h
      have hr' : asUint w.inodeId = r := h.1
      rw [← hr', hcast] at h
      exact ⟨rfl, h.2⟩

/-- A partition of 1024 blocks with the root only. -/
def rootStore : BlockStore := fun b =>
  if b = (setupSuperBlock 8192).inodeStart then newInodeBlock (setupSuperBlock 8192)
  else if b = (setupSuperBlock 8192).dataStart then newRootDir else zeroBlock

theorem linked_rootStore {inodeId : Int}
    (h : Linked (setupSuperBlock 8192) rootStore 0 inodeId) : inodeId = 0 := by
  induction h with
  | root => rfl
  | cur => rfl
  | entry inodeId i h hdir hi hname ih =>
    subst ih
    have hall : ∀ i < dentryPerBlock,
        entryInodeId (dirOf (setupSuperBlock 8192) rootStore 0) i = 0 := by decide +kernel
    rw [hall i hi]
    rfl

/-- In the root, `".."` is a directory, and `cd ..` stays there. -/
theorem rootStore_walkers_agree :
    ((doFindDir (setupSuperBlock 8192) 0 ⟨dotDotName, by decide⟩).flat [] rootStore).1 = 0 ∧
      ((doCd (setupSuperBlock 8192) rootName ⟨rootName, 0⟩ ⟨dotDotName, by decide⟩).flat []
        rootStore).1.inode = 0 := by
  have hentries : EntriesBelow (setupSuperBlock 8192) rootStore 0 := by
    intro inodeId hlinked hdir i hi hname
    obtain rfl := linked_rootStore hlinked
    have hall : ∀ i < dentryPerBlock,
        entryInodeId (dirOf (setupSuperBlock 8192) rootStore 0) i < bitsPerBlock := by
      decide +kernel
    exact hall i hi
  have hdir : ((doFindDir (setupSuperBlock 8192) 0 ⟨dotDotName, by decide⟩).flat [] rootStore).1
      = 0 := by
    decide +kernel
  obtain ⟨_, _, hcd, _⟩ := path_walkers_agree ⟨rootName, 0⟩ hentries le_rfl (by decide) rootName
    ⟨dotDotName, by decide⟩ []
  exact ⟨hdir, hcd 0 (by decide) hdir⟩

end Walk

end MipsOs.Fs
