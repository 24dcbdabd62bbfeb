import MipsOs.Fs.TreeSystem

/-!
# What a path means

`Resolves` is the meaning of a path: its components, one after another, from the
root or from the current directory.  `do_find` computes it as long as every
directory that lacks a component has an empty entry.  The loop of `do_find` over a
full directory ends without an error, and the walk stays where it is.

`do_find_correct_iff` is the result, for every state of every run of a new file
system.
-/

namespace MipsOs.Fs

open MipsOs.Lib MipsOs.Lib.BlockProg

/-! ## Components -/

/-- The components of a path.  Behind a `'/'` at the end there is none. -/
def components (rest : List UInt8) : List (List UInt8) :=
  if (rest.splitOn slash).getLast? = some [] then (rest.splitOn slash).dropLast
  else rest.splitOn slash

/-- Where a path starts. -/
def pathOrigin (cur : Nat) (path : CString) : Nat :=
  if path.bytes.head? = some slash then 0 else cur

/-- The components of a path behind its root. -/
def pathComponents (path : CString) : List (List UInt8) :=
  components (if path.bytes.head? = some slash then path.bytes.tail else path.bytes)

section Components

variable {rest : List UInt8}

@[simp] theorem components_nil : components [] = [] := by
  rw [components, List.splitOn_nil]
  rfl

theorem afterSlash_length (hrest : rest ≠ []) :
    ((afterSlash rest).getD []).length < rest.length := by
  have hle := (List.dropWhile_sublist (· ≠ slash) (l := rest)).length_le
  have hpos := List.length_pos_iff.mpr hrest
  unfold afterSlash
  cases hdrop : rest.dropWhile (· ≠ slash) with
  | nil => exact hpos
  | cons c r =>
    rw [hdrop, List.length_cons] at hle
    exact hle

/-- The first component, and those behind the first `'/'`. -/
theorem components_cons (hrest : rest ≠ []) :
    components rest = rest.takeWhile (· ≠ slash) :: components ((afterSlash rest).getD []) := by
  have happend := List.takeWhile_append_dropWhile (p := (· ≠ slash)) (l := rest)
  have hfirst : slash ∉ rest.takeWhile (· ≠ slash) := by
    intro hmem
    have hne := List.mem_takeWhile_imp hmem
    simp at hne
  unfold afterSlash
  cases hdrop : rest.dropWhile (· ≠ slash) with
  | nil =>
    rw [hdrop, List.append_nil] at happend
    rw [happend] at hfirst ⊢
    rw [Option.getD_none, components_nil, components, List.splitOn_eq_singleton hfirst]
    rw [if_neg (by simpa using hrest)]
  | cons c r =>
    have hc : c = slash := by
      have hnot := List.head?_dropWhile_not (fun x : UInt8 => decide (x ≠ slash)) rest
      rw [hdrop] at hnot
      simpa using hnot
    subst hc
    have hsplit : rest.splitOn slash = rest.takeWhile (· ≠ slash) :: r.splitOn slash := by
      conv_lhs => rw [← happend, hdrop]
      rw [List.splitOn_append_cons_self, List.splitOn_eq_singleton hfirst]
      rfl
    have hne := List.splitOn_ne_nil slash r
    rw [Option.getD_some, components, components, hsplit]
    rw [List.getLast?_cons_of_ne_nil hne, List.dropLast_cons_of_ne_nil hne]
    split_ifs <;> rfl

theorem firstName_bytes (hzero : 0 ∉ rest) :
    (firstName rest).bytes = rest.takeWhile (· ≠ slash) := by
  apply List.takeWhile_eq_self_iff.mpr
  intro c hc
  have hne : c ≠ 0 := by
    rintro rfl
    exact hzero ((List.takeWhile_sublist _).subset hc)
  simpa using hne

theorem zero_not_mem_afterSlash (hzero : 0 ∉ rest) : 0 ∉ (afterSlash rest).getD [] := by
  unfold afterSlash
  cases hdrop : rest.dropWhile (· ≠ slash) with
  | nil => exact List.not_mem_nil
  | cons c r =>
    intro hmem
    have hin : (0 : UInt8) ∈ rest.dropWhile (· ≠ slash) := hdrop ▸ List.mem_cons_of_mem _ hmem
    exact hzero ((List.dropWhile_sublist _).subset hin)

end Components

/-! ## The meaning of a path -/

section Meaning

variable (sb : SuperBlock) (s : BlockStore)

/-- A used entry of the directory has the name and the inode `c`. -/
def Names (d : Nat) (name : List UInt8) (c : Nat) : Prop :=
  ∃ i < dentryPerBlock, entryEmpty (dirOf sb s d) i = false ∧
    (entryName (dirOf sb s d) i).bytes = name ∧ entryInodeId (dirOf sb s d) i = c

/-- The components lead from `d` to `e`. -/
inductive Resolves : Nat → List (List UInt8) → Nat → Prop where
  | nil (d : Nat) : Resolves d [] d
  | cons {d c e : Nat} {name : List UInt8} {names : List (List UInt8)} (hdir : IsDir sb s d)
      (hname : Names sb s d name c) (h : Resolves c names e) : Resolves d (name :: names) e

/-- `r` is the right answer for a path with these components. -/
structure Answers (d : Nat) (names : List (List UInt8)) (r : Nat) : Prop where
  found : ∀ e, Resolves sb s d names e → r = e
  error_iff : r = asUint (-1) ↔ ¬ ∃ e, Resolves sb s d names e

/-- All 64 entries of the directory are in use, and none has the name. -/
structure FullWithout (d : Nat) (name : List UInt8) : Prop where
  isDir : IsDir sb s d
  full : ∀ i < dentryPerBlock, entryEmpty (dirOf sb s d) i = false
  absent : ¬ ∃ c, Names sb s d name c

/-- Every component is there, but for those that a full directory lacks. -/
inductive Passable : Nat → List (List UInt8) → Prop where
  | nil (d : Nat) : Passable d []
  | cons {d c : Nat} {name : List UInt8} {names : List (List UInt8)} (hdir : IsDir sb s d)
      (hname : Names sb s d name c) (h : Passable c names) : Passable d (name :: names)
  | skip {d : Nat} {name : List UInt8} {names : List (List UInt8)}
      (hfull : FullWithout sb s d name) (h : Passable d names) : Passable d (name :: names)

/-- The components come to a full directory that lacks one, and from there on the rest
is passable. -/
inductive Strays : Nat → List (List UInt8) → Prop where
  | here {d : Nat} {name : List UInt8} {names : List (List UInt8)}
      (hfull : FullWithout sb s d name) (h : Passable sb s d names) : Strays d (name :: names)
  | later {d c : Nat} {name : List UInt8} {names : List (List UInt8)} (hdir : IsDir sb s d)
      (hname : Names sb s d name c) (h : Strays c names) : Strays d (name :: names)

end Meaning

section Resolves

variable {sb : SuperBlock} {s : BlockStore} {d c c' e : Nat} {name : List UInt8}
  {names : List (List UInt8)}

theorem passable_iff :
    Passable sb s d names ↔ (∃ e, Resolves sb s d names e) ∨ Strays sb s d names := by
  constructor
  · intro h
    induction h with
    | nil d => exact .inl ⟨d, .nil d⟩
    | cons hdir hname _ ih =>
      rcases ih with ⟨e, he⟩ | hstrays
      · exact .inl ⟨e, .cons hdir hname he⟩
      · exact .inr (.later hdir hname hstrays)
    | skip hfull h _ => exact .inr (.here hfull h)
  · rintro (⟨e, he⟩ | hstrays)
    · induction he with
      | nil d => exact .nil d
      | cons hdir hname _ ih => exact .cons hdir hname ih
    · induction hstrays with
      | here hfull h => exact .skip hfull h
      | later hdir hname _ ih => exact .cons hdir hname ih

/-- In a tree of directories a name leads to one inode, which is allocated. -/
theorem DirTree.names_unique (h : DirTree sb s) (hd : Directory sb s d)
    (hc : Names sb s d name c) (hc' : Names sb s d name c') : c = c' := by
  obtain ⟨p, hblock, _⟩ := h.block d hd
  obtain ⟨n, _, hentries⟩ := hblock.entries
  obtain ⟨i, hi, hused, hname, hinode⟩ := hc
  obtain ⟨j, hj, hused', hname', hinode'⟩ := hc'
  have hin := hentries.lt_of_used hi hused
  have hjn := hentries.lt_of_used hj hused'
  obtain rfl := hentries.distinct i hin j hjn (CString.ext_bytes (hname.trans hname'.symm))
  rw [← hinode, hinode']

theorem DirTree.names_directory (h : DirTree sb s) (hd : Directory sb s d)
    (hc : Names sb s d name c) : Allocated sb s c := by
  obtain ⟨i, hi, hused, _, rfl⟩ := hc
  exact h.names_allocated hd hi hused

/-- A path that strays leads nowhere. -/
theorem DirTree.not_resolves_of_strays (h : DirTree sb s) (hd : Allocated sb s d)
    (hstrays : Strays sb s d names) : ¬ ∃ e, Resolves sb s d names e := by
  induction hstrays with
  | here hfull _ =>
    rintro ⟨e, he⟩
    cases he with
    | cons _ hname _ => exact hfull.absent ⟨_, hname⟩
  | later hdir hname _ ih =>
    rintro ⟨e, he⟩
    cases he with
    | cons _ hname' hrest =>
      obtain rfl := h.names_unique ⟨hd, hdir⟩ hname hname'
      exact ih (h.names_directory ⟨hd, hdir⟩ hname) ⟨e, hrest⟩

end Resolves

/-! ## The walk -/

section Walk

variable {sb : SuperBlock} {s : BlockStore} {d e m : Nat} {rest : List UInt8} {w : Walk}

/-- The loop goes on behind the component, also when there is nothing behind it. -/
theorem walkOn_next (hrest : rest ≠ []) (hdir : IsDir sb s w.inodeId)
    (hok : (w.next sb s rest).error = false) :
    walkOn sb s (m + 1) rest w = walkOn sb s m ((afterSlash rest).getD []) (w.next sb s rest) := by
  have hend : (w.next sb s rest).isEnd = decide (afterSlash rest = none) := by
    unfold Walk.next Walk.search
    split <;> rfl
  rw [walkOn, if_neg hrest, if_neg (not_not.mpr hdir)]
  by_cases hnone : afterSlash rest = none
  · rw [if_pos (.inr (by rw [hend, hnone]; rfl)), hnone, Option.getD_none]
    cases m <;> simp [walkOn]
  · rw [if_neg]
    rw [hok, hend, decide_eq_true_iff]
    simpa using hnone

theorem Walk.mk_inodeId (i : Int) (error isEnd : Bool) (dirName : Option CString) :
    (Walk.mk (Find.mk i error isEnd) dirName).inodeId = i := rfl

theorem Walk.mk_error (i : Int) (error isEnd : Bool) (dirName : Option CString) :
    (Walk.mk (Find.mk i error isEnd) dirName).error = error := rfl

theorem Walk.mk_isEnd (i : Int) (error isEnd : Bool) (dirName : Option CString) :
    (Walk.mk (Find.mk i error isEnd) dirName).isEnd = isEnd := rfl

theorem Walk.search_found {dir : Block} {name : CString} {i : Nat}
    (h : lookup dir name = .found i) :
    w.search dir name = .mk (.mk (asInt (entryInodeId dir i)) w.error w.isEnd)
      (some (entryName dir i)) := by
  rw [Walk.search, h]

theorem Walk.search_full {dir : Block} {name : CString} (h : lookup dir name = .full) :
    w.search dir name = w := by
  rw [Walk.search, h]

theorem Walk.search_missing {dir : Block} {name : CString} (h : lookup dir name = .missing) :
    w.search dir name = { w with error := true } := by
  rw [Walk.search, h]

/-- What the search of a directory comes to. -/
theorem DirTree.next_cases (h : DirTree sb s) (hd : Directory sb s d) (hw : w.inodeId = d)
    (herror : w.error = false) (hzero : 0 ∉ rest) :
    (∃ c : Nat, Names sb s d (rest.takeWhile (· ≠ slash)) c ∧ (w.next sb s rest).inodeId = c ∧
      (w.next sb s rest).error = false) ∨
    (FullWithout sb s d (rest.takeWhile (· ≠ slash)) ∧ (w.next sb s rest).inodeId = d ∧
      (w.next sb s rest).error = false) ∨
    ((¬ ∃ c, Names sb s d (rest.takeWhile (· ≠ slash)) c) ∧
      (∃ i < dentryPerBlock, entryEmpty (dirOf sb s d) i = true) ∧
      (w.next sb s rest).error = true) := by
  obtain ⟨p, hblock, _⟩ := h.block d hd
  obtain ⟨n, _, hentries⟩ := hblock.entries
  have hle := hentries.le
  have hfirst := firstName_bytes hzero
  unfold Walk.next
  rw [hw]
  by_cases hex : ∃ i < n, entryName (dirOf sb s d) i = firstName rest
  · obtain ⟨i, hi, hname⟩ := hex
    have hused := hentries.used i hi
    have halloc := h.names_allocated hd (by omega) hused
    have hfound := hentries.lookup_found hi hname
    refine .inl ⟨entryInodeId (dirOf sb s d) i, ⟨i, by omega, hused, by rw [hname, hfirst], rfl⟩,
      ?_, ?_⟩
    · rw [Walk.search_found hfound, halloc.asInt_eq, Walk.mk_inodeId]
    · rw [Walk.search_found hfound, Walk.mk_error]
      exact herror
  · have hother : ∀ i < n, entryName (dirOf sb s d) i ≠ firstName rest :=
      fun i hi heq => hex ⟨i, hi, heq⟩
    have habsent : ¬ ∃ c, Names sb s d (rest.takeWhile (· ≠ slash)) c := by
      rintro ⟨c, i, hi, hused, hname, _⟩
      exact hother i (hentries.lt_of_used hi hused) (CString.ext_bytes (hname.trans hfirst.symm))
    by_cases hfull : n = dentryPerBlock
    · subst hfull
      rw [Walk.search_full (hentries.lookup_full hother)]
      exact .inr (.inl ⟨⟨hd.isDir, hentries.used, habsent⟩, rfl, herror⟩)
    · have hlt := lt_of_le_of_ne hle hfull
      rw [Walk.search_missing (hentries.lookup_missing hlt hother)]
      exact .inr (.inr ⟨habsent, ⟨n, hlt, hentries.empty n le_rfl hlt⟩, rfl⟩)

/-- The walk ends without an error on a passable path, and then where the path leads. -/
theorem DirTree.walkOn_spec (h : DirTree sb s) (hd : Allocated sb s d) (hw : w.inodeId = d)
    (herror : w.error = false) (hlen : rest.length ≤ m) (hzero : 0 ∉ rest) :
    ((walkOn sb s m rest w).error = false ↔ Passable sb s d (components rest)) ∧
      ∀ e, Resolves sb s d (components rest) e → (walkOn sb s m rest w).inodeId = e := by
  induction m generalizing rest w d with
  | zero =>
    obtain rfl := List.length_eq_zero_iff.mp (Nat.le_zero.mp hlen)
    rw [components_nil]
    refine ⟨iff_of_true herror (.nil d), ?_⟩
    rintro e ⟨⟩
    exact hw
  | succ m ih =>
    by_cases hrest : rest = []
    · subst hrest
      rw [components_nil, walkOn, if_pos rfl]
      refine ⟨iff_of_true herror (.nil d), ?_⟩
      rintro e ⟨⟩
      exact hw
    rw [components_cons hrest]
    by_cases hdir : IsDir sb s d
    · have hd' : Directory sb s d := ⟨hd, hdir⟩
      have hlen' : ((afterSlash rest).getD []).length ≤ m := by
        have hlt := afterSlash_length hrest
        omega
      have hzero' := zero_not_mem_afterSlash hzero
      rcases h.next_cases hd' hw herror hzero with
        ⟨c, hname, hnext, hok⟩ | ⟨hfull, hnext, hok⟩ | ⟨habsent, ⟨i, hi, hempty⟩, hbad⟩
      · obtain ⟨hpass, hresolves⟩ := ih (h.names_directory hd' hname) hnext hok hlen' hzero'
        rw [walkOn_next hrest (hw ▸ hdir) hok, hpass]
        constructor
        · constructor
          · exact fun hp => .cons hdir hname hp
          · intro hp
            cases hp with
            | cons _ hname' hp => exact h.names_unique hd' hname hname' ▸ hp
            | skip hfull _ => exact absurd ⟨c, hname⟩ hfull.absent
        · rintro e (_ | ⟨_, hname', he⟩)
          exact hresolves e (h.names_unique hd' hname hname' ▸ he)
      · obtain ⟨hpass, _⟩ := ih hd hnext hok hlen' hzero'
        rw [walkOn_next hrest (hw ▸ hdir) hok, hpass]
        constructor
        · constructor
          · exact fun hp => .skip hfull hp
          · intro hp
            cases hp with
            | cons _ hname _ => exact absurd ⟨_, hname⟩ hfull.absent
            | skip _ hp => exact hp
        · rintro e (_ | ⟨_, hname, _⟩)
          exact absurd ⟨_, hname⟩ hfull.absent
      · rw [walkOn, if_neg hrest, if_neg (not_not.mpr (hw ▸ hdir)), if_pos (.inl hbad), hbad]
        constructor
        · refine iff_of_false (by decide) ?_
          intro hp
          cases hp with
          | cons _ hname _ => exact habsent ⟨_, hname⟩
          | skip hfull _ =>
            rw [hfull.full i hi] at hempty
            cases hempty
        · rintro e (_ | ⟨_, hname, _⟩)
          exact absurd ⟨_, hname⟩ habsent
    · rw [walkOn, if_neg hrest, if_pos (hw ▸ hdir)]
      constructor
      · refine iff_of_false (by simp) ?_
        intro hp
        cases hp with
        | cons hdir' _ _ => exact hdir hdir'
        | skip hfull _ => exact hdir hfull.isDir
      · rintro e (_ | ⟨hdir', _, _⟩)
        exact absurd hdir' hdir

/-- No allocated inode has the number of the error. -/
theorem Allocated.asUint_ne_error (h : Allocated sb s e) : asUint (e : Int) ≠ asUint (-1) := by
  have hlt := h.lt
  have hbits : bitsPerBlock < asUint (-1) := by decide
  rw [h.asUint_eq]
  omega

/-- `do_find` answers what the path means, unless the path strays. -/
theorem DirTree.doFind_answers_iff (h : DirTree sb s) (hd : Allocated sb s d) (path : CString)
    (unread : List (Option Block)) :
    Answers sb s (pathOrigin d path) (pathComponents path)
        ((doFind sb d path).flat unread s).1 ↔
      ¬ Strays sb s (pathOrigin d path) (pathComponents path) := by
  have horigin : Allocated sb s (pathOrigin d path) := by
    unfold pathOrigin
    split_ifs
    · exact h.root.toAllocated
    · exact hd
  have hspec : ((pathOn sb s d path).error = false ↔
      Passable sb s (pathOrigin d path) (pathComponents path)) ∧
      ∀ e, Resolves sb s (pathOrigin d path) (pathComponents path) e →
        (pathOn sb s d path).inodeId = e := by
    unfold pathOn walkStart pathComponents
    unfold pathOrigin at horigin ⊢
    split_ifs at horigin ⊢
    · exact h.walkOn_spec horigin rfl rfl le_rfl fun hz => path.nonzero (List.mem_of_mem_tail hz)
    · exact h.walkOn_spec horigin rfl rfl le_rfl path.nonzero
  obtain ⟨hpass, hresolves⟩ := hspec
  obtain ⟨e, he, halloc⟩ := h.pathOn_allocated hd path
  rw [passable_iff] at hpass
  have herror : ((doFind sb d path).flat unread s).1 = asUint (-1) ↔
      ¬ (pathOn sb s d path).error = false := by
    rw [doFind_flat, he]
    cases (pathOn sb s d path).error with
    | true => simp
    | false => simpa using halloc.asUint_ne_error
  constructor
  · intro hanswers hstrays
    have hnone := h.not_resolves_of_strays horigin hstrays
    exact herror.mp (hanswers.error_iff.mpr hnone) (hpass.mpr (.inr hstrays))
  · intro hstrays
    constructor
    · intro c hc
      have hok := hpass.mpr (.inl ⟨c, hc⟩)
      have hsame : e = c := by
        have hcast := hresolves c hc
        omega
      rw [doFind_flat, hok, he, ← hsame]
      exact halloc.asUint_eq
    · rw [herror, hpass]
      simp only [hstrays, or_false]

end Walk

namespace TreeSystem

/-- In every run from a new file system, from every current directory, `do_find`
answers what the path means exactly if the path does not stray. -/
theorem do_find_correct_iff {sectorNum : Nat} (hsectors : sectorNum < 2 ^ 32) {old : BlockStore}
    {unread : List (Option Block)} {st : TreeState}
    (h : Reaches (step (setupSuperBlock sectorNum)) (Room (setupSuperBlock sectorNum))
      (start (setupSuperBlock sectorNum) old unread) st) {d : Nat}
    (hd : Directory (setupSuperBlock sectorNum) st.store d) {path : CString}
    (_hpath : path.strlen < 100) (unread' : List (Option Block)) :
    Answers (setupSuperBlock sectorNum) st.store (pathOrigin d path) (pathComponents path)
        ((doFind (setupSuperBlock sectorNum) d path).flat unread' st.store).1 ↔
      ¬ Strays (setupSuperBlock sectorNum) st.store (pathOrigin d path) (pathComponents path) :=
  (reaches_inv (regions_setup hsectors) h).tree.doFind_answers_iff hd.toAllocated path unread'

/-! ## A full root -/

section FullRoot

variable {sb : SuperBlock} {old : BlockStore} {st : TreeState} {k : Nat}

/-- A name of one byte, which is not a letter. -/
def byteName (k : Nat) : CString where
  bytes := [UInt8.ofNat (128 + k % 64)]
  nonzero := by
    have hall : ∀ j < 64, (0 : UInt8) ∉ [UInt8.ofNat (128 + j)] := by decide
    exact hall _ (Nat.mod_lt k (by decide))

theorem byteName_injOn {i j : Nat} (hi : i < 64) (hj : j < 64) (h : byteName i = byteName j) :
    i = j := by
  have hall : ∀ i < 64, ∀ j < 64, byteName i = byteName j → i = j := by decide +kernel
  exact hall i hi j hj h

theorem byteName_short : (byteName k).strlen < maxName := (by decide : 1 < maxName)

theorem byteName_nonempty : (byteName k).bytes ≠ [] := List.cons_ne_nil _ _

/-- The root holds `k` files, and their inodes are those from 1 to `k`. -/
structure Holds (sb : SuperBlock) (s : BlockStore) (k : Nat) : Prop where
  used_iff : ∀ i, InodeUsed sb s i ↔ i ≤ k
  entries : Entries (dirOf sb s (0 : Nat)) (k + 2)
  dot : entryName (dirOf sb s (0 : Nat)) 0 = dotString
  dotDot : entryName (dirOf sb s (0 : Nat)) 1 = dotDotString
  names : ∀ j < k, entryName (dirOf sb s (0 : Nat)) (j + 2) = byteName j

theorem holds_newStore (hr : Regions sb) : Holds sb (newStore sb old) 0 := by
  have hdir : dirOf sb (newStore sb old) (0 : Nat) = newDir 0 0 := dirOf_newStore hr
  have hblock : DirBlock (newDir 0 0) 0 0 := newDir_dirBlock (by decide) (by decide)
  constructor
  · intro i
    rw [inodeUsed_newStore hr, Nat.le_zero]
  · rw [hdir]
    exact entries_newDir
  · rw [hdir, hblock.dot_name]
  · rw [hdir, hblock.dotDot_name]
  · intro j hj
    omega

/-- The names in the root are `"."`, `".."` and those of the files. -/
theorem Holds.name_cases {s : BlockStore} (h : Holds sb s k) {i : Nat} (hi : i < k + 2) :
    entryName (dirOf sb s (0 : Nat)) i = dotString ∨
      entryName (dirOf sb s (0 : Nat)) i = dotDotString ∨
      ∃ j < k, entryName (dirOf sb s (0 : Nat)) i = byteName j := by
  rcases i with - | - | i
  · exact .inl h.dot
  · exact .inr (.inl h.dotDot)
  · exact .inr (.inr ⟨i, by omega, h.names i (by omega)⟩)

theorem Holds.newName {s : BlockStore} (h : Holds sb s k) (hroot : Directory sb s 0) (hk : k < 62) :
    NewName sb s 0 (k + 2) (byteName k) where
  dir := hroot
  entries := h.entries
  lt := by
    rw [dentryPerBlock]
    omega
  nonempty := byteName_nonempty
  short := byteName_short
  fresh i hi := by
    have hdots : ∀ j < 64, dotString ≠ byteName j ∧ dotDotString ≠ byteName j := by decide +kernel
    obtain ⟨hdot, hdotDot⟩ := hdots k (by omega)
    rcases h.name_cases hi with heq | heq | ⟨j, hj, heq⟩
    · rwa [heq]
    · rwa [heq]
    · rw [heq]
      intro hsame
      have hjk := byteName_injOn (by omega) (by omega) hsame
      omega

/-- One more file. -/
theorem Holds.touch (hr : Regions sb) (h : Holds sb st.store k) (hinv : Inv sb st) (hk : k < 62) :
    Room sb st (.touch 0 (byteName k) 0 []) ∧
      Holds sb ((doTouch sb 0 0 (byteName k)).flat [] st.store).2.2 (k + 1) := by
  have hname := h.newName hinv.tree.root hk
  have hk' : k + 1 < bitsPerBlock := by
    simp only [bitsPerBlock, blockSize]
    omega
  have hfirst : FirstFree sb st.store (k + 1) := by
    refine ⟨hk', ?_, fun j hj => (h.used_iff j).mpr (by omega)⟩
    rw [h.used_iff]
    omega
  have hslot := hname.entries.freeSlot_some hname.lt hname.nonempty hname.fresh
  have htouch : (doTouch sb 0 0 (byteName k)).Sat st.store _ :=
    doTouch_sat hslot ⟨k + 1, hk', hfirst.unused⟩
  obtain ⟨inodeId, hfirst', ht⟩ := htouch.flat []
  obtain rfl := hfirst.eq hfirst'
  have hc : Created sb st.store (madeFile sb st.store ((inodeOf sb st.store (0 : Nat)).addrs 0)
      (k + 2) (byteName k) (k + 1)) 0 (k + 2) (byteName k) (k + 1) none :=
    madeFile_created hr (hinv.own.le 0 hinv.tree.root) hfirst.lt hfirst.unused
  rw [← ht] at hc
  have hdir := hc.dirOf_parent hinv.tree.root
  have hold : ∀ j < k + 2, entryName (dirOf sb
      ((doTouch sb 0 0 (byteName k)).flat [] st.store).2.2 (0 : Nat)) j =
      entryName (dirOf sb st.store (0 : Nat)) j := by
    intro j hj
    rw [hdir]
    exact entryName_setEntry_of_ne byteName_short (by omega) (by rw [dentryPerBlock]; omega)
      (h.entries.short j hj)
  refine ⟨⟨hinv.tree.root, byteName_short, fun _ => ⟨⟨k + 2, hname.lt, ?_⟩,
    ⟨k + 1, hk', hfirst.unused⟩, fun hno => by cases hno⟩⟩, ?_, ?_, ?_, ?_, ?_⟩
  · exact h.entries.empty _ le_rfl hname.lt
  · intro i
    rw [hc.used_iff, h.used_iff]
    omega
  · rw [hdir]
    exact hname.entries.setEntry hname.lt hname.nonempty hname.short hname.fresh
  · rw [hold 0 (by omega), h.dot]
  · rw [hold 1 (by omega), h.dotDot]
  · intro j hj
    by_cases hlast : j = k
    · subst hlast
      rw [hdir]
      exact entryName_setEntry hname.lt byteName_short
    · rw [hold (j + 2) (by omega), h.names j (by omega)]

/-- The files are made one after another. -/
theorem exists_holds (hr : Regions sb) (old : BlockStore) (hk : k ≤ 62) :
    ∃ st, Reaches (step sb) (Room sb) (start sb old []) st ∧ Holds sb st.store k := by
  induction k with
  | zero =>
    have hstore : (start sb old []).store = newStore sb old := initBlocks_flat sb [] old
    exact ⟨_, .refl _, hstore ▸ holds_newStore hr⟩
  | succ k ih =>
    obtain ⟨st, hreach, hholds⟩ := ih (by omega)
    obtain ⟨hroom, hnext⟩ := hholds.touch hr (reaches_inv hr hreach) (by omega)
    exact ⟨_, hreach.snoc hroom rfl, hnext⟩

/-- A full root lacks the name `"a"`. -/
theorem Holds.fullWithout {s : BlockStore} (h : Holds sb s 62) (hroot : Directory sb s 0) :
    FullWithout sb s 0 letterA.bytes := by
  refine ⟨hroot.isDir, fun i hi => h.entries.used i hi, ?_⟩
  rintro ⟨c, i, hi, _, hname, _⟩
  have hdots : letterA.bytes ≠ dotString.bytes ∧ letterA.bytes ≠ dotDotString.bytes ∧
      ∀ j < 64, letterA.bytes ≠ (byteName j).bytes := by decide +kernel
  obtain ⟨hdot, hdotDot, hfiles⟩ := hdots
  rcases h.name_cases (i := i) hi with heq | heq | ⟨j, hj, heq⟩
  · exact hdot (hname ▸ heq ▸ rfl)
  · exact hdotDot (hname ▸ heq ▸ rfl)
  · exact hfiles j (by omega) (hname ▸ heq ▸ rfl)

end FullRoot

/-! ## Directories inside of each other -/

section NestedDirs

variable {sb : SuperBlock} {s : BlockStore} {d k : Nat} {names : List (List UInt8)}

/-- None of the directories is full. -/
theorem Nested.not_full (h : Nested sb s k) (hd : d ≤ k) :
    entryEmpty (dirOf sb s d) 3 = true := by
  have hnew : entryEmpty (newDir d (d - 1)) 3 = true :=
    entries_newDir.empty 3 (by decide) (by decide)
  by_cases hlast : d = k
  · rw [hlast, h.last, ← hlast]
    exact hnew
  · rw [h.next d (by omega), entryEmpty_setEntry_of_ne (by decide) (by decide)]
    exact hnew

theorem Nested.not_strays (h : Nested sb s k) (htree : DirTree sb s) (hd : Allocated sb s d) :
    ¬ Strays sb s d names := by
  intro hstrays
  induction hstrays with
  | here hfull _ =>
    have hempty := h.not_full ((h.used_iff _).mp hd.used)
    rw [hfull.full 3 (by decide)] at hempty
    cases hempty
  | later hdir hname _ ih => exact ih (htree.names_directory ⟨hd, hdir⟩ hname)

/-- The entry of each directory leads to the next one. -/
theorem Nested.names_next (h : Nested sb s k) (hd : d < k) (hk : k < bitsPerBlock) :
    Names sb s d letterA.bytes (d + 1) := by
  have hword : bitsPerBlock ≤ 2 ^ 32 := by decide
  refine ⟨2, by decide, ?_⟩
  rw [h.next d hd]
  exact ⟨entryEmpty_setEntry (by decide) (by decide) (by decide),
    congrArg CString.bytes (entryName_setEntry (by decide) (by decide)),
    entryInodeId_setEntry (by decide) (by omega)⟩

/-- The path `"a/a/…"` leads inwards. -/
theorem Nested.resolves (h : Nested sb s k) (hk : k < bitsPerBlock) (n : Nat) (hd : d + n ≤ k) :
    Resolves sb s d (List.replicate n letterA.bytes) (d + n) := by
  induction n generalizing d with
  | zero => exact .nil d
  | succ n ih =>
    have hrest := ih (d := d + 1) (by omega)
    rw [Nat.add_assoc, Nat.add_comm 1 n] at hrest
    exact .cons (h.isDir d (by omega)) (h.names_next (by omega) hk) hrest

end NestedDirs

/-- A path through three directories, with a `'/'` at its end. -/
def threeDeep : CString := ⟨[97, 47, 97, 47, 97, 47], by decide⟩

/-- In a new partition of 1024 blocks with five directories `a` inside of each other, the
path `"a/a/a/"` leads from the first one to the fourth. -/
theorem find_nested_correct :
    ∃ st, Reaches (step (setupSuperBlock 8192)) (Room (setupSuperBlock 8192))
        (start (setupSuperBlock 8192) (fun _ => zeroBlock) []) st ∧
      Answers (setupSuperBlock 8192) st.store (pathOrigin 1 threeDeep) (pathComponents threeDeep)
        ((doFind (setupSuperBlock 8192) (1 : Nat) threeDeep).flat [] st.store).1 ∧
      ((doFind (setupSuperBlock 8192) (1 : Nat) threeDeep).flat [] st.store).1 = 4 := by
  have hr : Regions (setupSuperBlock 8192) := regions_setup (by decide)
  obtain ⟨st, hrun, hnested⟩ := exists_nested (k := 5) hr (by decide) (by decide) fun _ => zeroBlock
  have hreach := hrun.mono fun _ _ hok => hok.1
  have hd := hnested.directory (i := 1) (by decide) (by decide)
  have hshort : threeDeep.strlen < 100 := by decide
  have hanswers := (do_find_correct_iff (by decide) hreach hd hshort []).mpr
    (hnested.not_strays (reaches_inv hr hreach).tree hd.toAllocated)
  have hpath : pathComponents threeDeep = List.replicate 3 letterA.bytes := by decide
  refine ⟨st, hreach, hanswers, hanswers.found 4 ?_⟩
  rw [hpath]
  exact hnested.resolves (d := 1) (by decide) 3 (by decide)

/-- With 62 files in the root the path `"a"` leads to the root. -/
theorem find_in_full_root_incorrect :
    ¬ ∀ (sectorNum : Nat) (old : BlockStore) (st : TreeState) (d : Nat) (path : CString)
      (unread : List (Option Block)), sectorNum < 2 ^ 32 →
      Reaches (step (setupSuperBlock sectorNum)) (Room (setupSuperBlock sectorNum))
        (start (setupSuperBlock sectorNum) old []) st →
      Directory (setupSuperBlock sectorNum) st.store d → path.strlen < 100 →
      Answers (setupSuperBlock sectorNum) st.store (pathOrigin d path) (pathComponents path)
        ((doFind (setupSuperBlock sectorNum) d path).flat unread st.store).1 := by
  intro h
  have hr : Regions (setupSuperBlock 8192) := regions_setup (by decide)
  obtain ⟨st, hreach, hholds⟩ := exists_holds hr (fun _ => zeroBlock) le_rfl
  have htree := (reaches_inv hr hreach).tree
  have hanswers := h 8192 _ st 0 letterA [] (by decide) hreach htree.root (by decide)
  rw [htree.doFind_answers_iff htree.root.toAllocated] at hanswers
  apply hanswers
  have hpath : pathComponents letterA = [letterA.bytes] := by decide
  rw [hpath]
  exact .here (hholds.fullWithout htree.root) (.nil 0)

end TreeSystem

end MipsOs.Fs
