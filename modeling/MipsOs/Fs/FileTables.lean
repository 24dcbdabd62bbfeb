import MipsOs.Fs.Layout

/-!
# Open files

The table `files` of `fs/fs.c` and the descriptors in `files[MAX_FILES]` of a
PCB.  A descriptor points to an entry of the table or is null.  `open` takes
the first unused entry and the first null descriptor of the caller; `close`
gives both back.  What the two calls do to the disk is not part of this file.

The table has 64 entries of 80 bytes, and `files_init` takes one page for it.  The
inode of entry 51 and the entries after it lie in the next page, which is the page of
the super block once a file system is mounted.

The processes are a type `P`.
-/

namespace MipsOs.Fs

/-- `MAX_FILES` -/
abbrev maxFiles : Nat := 32

/-- `GLOBAL_MAX_FILES` -/
abbrev globalMaxFiles : Nat := 64

/-- `sizeof(file_t)`: four words, and an inode of sixteen. -/
def sizeofFile : Nat := 80

/-- The bytes that `files_init` takes and clears: `PAGE_SIZE`. -/
def filesBytes : Nat := 4096

-- An inode has 13 addresses, indexed by `Fin 13`.
instance neZeroAddrs : NeZero 13 := ⟨by decide⟩

/-- `inode_t` -/
structure Inode where
  type : Nat
  nLinks : Nat
  size : Nat
  addrs : Fin 13 → Nat
  deriving DecidableEq

/-- `file_t`; `inUse` is the field `using`. -/
structure OpenFile where
  inUse : Bool
  inodeId : Nat
  access : Nat
  offset : Int
  inode : Inode
  deriving DecidableEq

/-- An entry of zeros. -/
def OpenFile.blank : OpenFile where
  inUse := false
  inodeId := 0
  access := 0
  offset := 0
  inode := { type := 0, nLinks := 0, size := 0, addrs := fun _ => 0 }

/-- The entry lies in the page of the table. -/
def InPage (f : Fin globalMaxFiles) : Prop := (f + 1) * sizeofFile ≤ filesBytes

instance (f : Fin globalMaxFiles) : Decidable (InPage f) := inferInstanceAs (Decidable (_ ≤ _))

/-- The entry starts behind the page of the table. -/
def BehindPage (f : Fin globalMaxFiles) : Prop := filesBytes ≤ f * sizeofFile

instance (f : Fin globalMaxFiles) : Decidable (BehindPage f) :=
  inferInstanceAs (Decidable (_ ≤ _))

/-- What the memory behind the page holds has no entry marked as used. -/
def UnusedBehind (behind : Fin globalMaxFiles → OpenFile) : Prop :=
  ∀ f, BehindPage f → (behind f).inUse = false

/-- Memory that holds zeros. -/
def zeroBehind : Fin globalMaxFiles → OpenFile := fun _ => .blank

theorem zeroBehind_unused : UnusedBehind zeroBehind := fun _ _ => rfl

/-- The table `files` and the descriptors of every process. -/
structure FileTables (P : Type) where
  files : Fin globalMaxFiles → OpenFile
  fds : P → Fin maxFiles → Option (Fin globalMaxFiles)

namespace FileTables

variable {P : Type} [DecidableEq P]

/-- The tables after `files_init`, with no process.  `behind` is what the memory behind
the page holds: the inode of the entry that crosses the end of the page, and the entries
after it. -/
def init (behind : Fin globalMaxFiles → OpenFile) : FileTables P where
  files f :=
    if InPage f then .blank
    else if BehindPage f then behind f
    else { OpenFile.blank with inode := (behind f).inode }
  fds := fun _ _ => none

/-- The first entry that is not used. -/
def freeFile (t : FileTables P) : Option (Fin globalMaxFiles) :=
  (List.finRange globalMaxFiles).find? fun f => (t.files f).inUse = false

/-- The first null descriptor of a process. -/
def freeFd (t : FileTables P) (caller : P) : Option (Fin maxFiles) :=
  (List.finRange maxFiles).find? fun fd => t.fds caller fd = none

/-- Point a descriptor at an entry, or make it null. -/
def setFd (t : FileTables P) (caller : P) (fd : Fin maxFiles)
    (f : Option (Fin globalMaxFiles)) : P → Fin maxFiles → Option (Fin globalMaxFiles) :=
  Function.update t.fds caller (Function.update (t.fds caller) fd f)

/-- When `open` takes an entry, it is one of the page. -/
def OpensInPage (t : FileTables P) (caller : P) : Prop :=
  t.freeFd caller = none ∨ ∃ f, t.freeFile = some f ∧ InPage f

/-- The tables after `open` has found the inode and read it, with the answer
of `open`.  There is no answer when a table is full. -/
def openFile (t : FileTables P) (caller : P) (inodeId access : Nat) (inode : Inode) :
    Option (Fin maxFiles × FileTables P) :=
  match t.freeFile, t.freeFd caller with
  | some f, some fd => some (fd,
      { files := Function.update t.files f
          { inUse := true, inodeId := inodeId, access := access, offset := 0, inode := inode }
        fds := t.setFd caller fd (some f) })
  | _, _ => none

/-- The tables after `close` of a descriptor.  A null descriptor is a fault. -/
def closeFile (t : FileTables P) (caller : P) (fd : Fin maxFiles) : Option (FileTables P) :=
  match t.fds caller fd with
  | none => none
  | some f => some
      { files := Function.update t.files f { t.files f with inUse := false }
        fds := t.setFd caller fd none }

variable {t t' : FileTables P} {caller p : P} {fd fd' : Fin maxFiles}
  {f : Fin globalMaxFiles}

theorem setFd_self (f : Option (Fin globalMaxFiles)) : t.setFd caller fd f caller fd = f := by
  simp [setFd]

theorem setFd_of_ne (f : Option (Fin globalMaxFiles)) (h : ¬ (p = caller ∧ fd' = fd)) :
    t.setFd caller fd f p fd' = t.fds p fd' := by
  by_cases hp : p = caller
  · subst hp
    have hfd : fd' ≠ fd := fun heq => h ⟨rfl, heq⟩
    simp [setFd, hfd]
  · simp [setFd, hp]

/-- `open` takes an unused entry and a null descriptor. -/
theorem openFile_cases {inodeId access : Nat} {inode : Inode}
    (h : t.openFile caller inodeId access inode = some (fd, t')) :
    ∃ f, (t.files f).inUse = false ∧ t.fds caller fd = none ∧
      t'.files = Function.update t.files f
        { inUse := true, inodeId := inodeId, access := access, offset := 0, inode := inode } ∧
      t'.fds = t.setFd caller fd (some f) := by
  simp only [openFile] at h
  split at h
  · rename_i f fd₀ hf hfd
    obtain ⟨rfl, rfl⟩ := Prod.mk.inj (Option.some.inj h)
    have hunused := List.find?_some hf
    have hnull := List.find?_some hfd
    exact ⟨f, by simpa using hunused, by simpa using hnull, rfl, rfl⟩
  · cases h

/-- `close` gives back the entry of the descriptor. -/
theorem closeFile_cases (h : t.closeFile caller fd = some t') :
    ∃ f, t.fds caller fd = some f ∧
      t'.files = Function.update t.files f { t.files f with inUse := false } ∧
      t'.fds = t.setFd caller fd none := by
  simp only [closeFile] at h
  split at h
  · cases h
  · rename_i f hf
    obtain rfl := Option.some.inj h
    exact ⟨f, hf, rfl, rfl⟩

/-! ## Owned tables -/

/-- The used entries and the descriptors point to each other one to one. -/
structure Matched (t : FileTables P) : Prop where
  used_iff : ∀ f, (t.files f).inUse = true ↔ ∃ p fd, t.fds p fd = some f
  unique : ∀ f p p' fd fd', t.fds p fd = some f → t.fds p' fd' = some f → p = p' ∧ fd = fd'

variable {behind : Fin globalMaxFiles → OpenFile}

omit [DecidableEq P] in
/-- An entry is marked as used at the start when it lies behind the page and the memory
there has the mark. -/
theorem init_inUse (f : Fin globalMaxFiles) : ((init behind : FileTables P).files f).inUse =
    (decide (BehindPage f) && (behind f).inUse) := by
  unfold init
  dsimp only
  split
  · rename_i hpage
    have hnot : ¬ BehindPage f := by
      unfold BehindPage
      unfold InPage sizeofFile filesBytes at *
      omega
    rw [decide_eq_false hnot, Bool.false_and]
    rfl
  · split
    · rename_i hbehind
      rw [decide_eq_true hbehind, Bool.true_and]
    · rename_i hbehind
      rw [decide_eq_false hbehind, Bool.false_and]
      rfl

omit [DecidableEq P] in
theorem init_unused (h : UnusedBehind behind) (f : Fin globalMaxFiles) :
    ((init behind : FileTables P).files f).inUse = false := by
  rw [init_inUse]
  by_cases hf : BehindPage f
  · rw [h f hf, Bool.and_false]
  · rw [decide_eq_false hf, Bool.false_and]

omit [DecidableEq P] in
theorem matched_init (h : UnusedBehind behind) : Matched (init behind : FileTables P) where
  used_iff f := by
    rw [init_unused h]
    exact iff_of_false nofun nofun
  unique f p p' fd fd' hfd := by cases hfd

theorem Matched.openFile {inodeId access : Nat} {inode : Inode} (h : Matched t)
    (hopen : t.openFile caller inodeId access inode = some (fd, t')) : Matched t' := by
  obtain ⟨f, hunused, hnull, hfiles, hfds⟩ := openFile_cases hopen
  have hfree : ∀ p fd, t.fds p fd ≠ some f := by
    intro p fd hfd
    have hused := (h.used_iff f).mpr ⟨p, fd, hfd⟩
    rw [hunused] at hused
    cases hused
  have hold : ∀ p' fd', ¬ (p' = caller ∧ fd' = fd) → t'.fds p' fd' = t.fds p' fd' := by
    intro p' fd' hne
    rw [hfds, setFd_of_ne _ hne]
  have hnew : t'.fds caller fd = some f := by
    rw [hfds, setFd_self]
  refine ⟨fun g => ?_, fun g p p' fd₁ fd₂ h₁ h₂ => ?_⟩
  · by_cases hg : g = f
    · subst hg
      rw [hfiles, Function.update_self]
      exact iff_of_true rfl ⟨caller, fd, hnew⟩
    · rw [hfiles, Function.update_of_ne hg, h.used_iff]
      constructor
      · rintro ⟨p, fd', hfd'⟩
        refine ⟨p, fd', (hold p fd' ?_).trans hfd'⟩
        rintro ⟨rfl, rfl⟩
        rw [hnull] at hfd'
        cases hfd'
      · rintro ⟨p, fd', hfd'⟩
        by_cases hp : p = caller ∧ fd' = fd
        · obtain ⟨rfl, rfl⟩ := hp
          exact absurd (Option.some.inj (hfd'.symm.trans hnew)) hg
        · exact ⟨p, fd', (hold p fd' hp).symm.trans hfd'⟩
  · by_cases hp₁ : p = caller ∧ fd₁ = fd
    · by_cases hp₂ : p' = caller ∧ fd₂ = fd
      · exact ⟨hp₁.1.trans hp₂.1.symm, hp₁.2.trans hp₂.2.symm⟩
      · rw [hold p' fd₂ hp₂] at h₂
        rw [hp₁.1, hp₁.2, hnew] at h₁
        exact absurd (h₂.trans h₁.symm) (hfree p' fd₂)
    · rw [hold p fd₁ hp₁] at h₁
      by_cases hp₂ : p' = caller ∧ fd₂ = fd
      · rw [hp₂.1, hp₂.2, hnew] at h₂
        exact absurd (h₁.trans h₂.symm) (hfree p fd₁)
      · rw [hold p' fd₂ hp₂] at h₂
        exact h.unique g p p' fd₁ fd₂ h₁ h₂

theorem Matched.closeFile (h : Matched t) (hclose : t.closeFile caller fd = some t') :
    Matched t' := by
  obtain ⟨f, hfd, hfiles, hfds⟩ := closeFile_cases hclose
  have hback : ∀ {p' fd' g}, t'.fds p' fd' = some g → t.fds p' fd' = some g ∧ g ≠ f := by
    intro p' fd' g hg
    by_cases hp : p' = caller ∧ fd' = fd
    · rw [hfds, hp.1, hp.2, setFd_self] at hg
      cases hg
    · rw [hfds, setFd_of_ne _ hp] at hg
      refine ⟨hg, ?_⟩
      rintro rfl
      exact hp (h.unique g p' caller fd' fd hg hfd)
  refine ⟨fun g => ?_, fun g p p' fd₁ fd₂ h₁ h₂ => ?_⟩
  · by_cases hg : g = f
    · subst hg
      rw [hfiles, Function.update_self]
      refine iff_of_false (by simp) ?_
      rintro ⟨p, fd', hfd'⟩
      exact (hback hfd').2 rfl
    · rw [hfiles, Function.update_of_ne hg, h.used_iff]
      constructor
      · rintro ⟨p, fd', hfd'⟩
        refine ⟨p, fd', ?_⟩
        rw [hfds, setFd_of_ne, hfd']
        rintro ⟨rfl, rfl⟩
        exact hg (Option.some.inj (hfd'.symm.trans hfd))
      · rintro ⟨p, fd', hfd'⟩
        exact ⟨p, fd', (hback hfd').1⟩
  · exact h.unique g p p' fd₁ fd₂ (hback h₁).1 (hback h₂).1

end FileTables

end MipsOs.Fs
