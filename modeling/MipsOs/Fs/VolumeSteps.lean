import MipsOs.Fs.Volume
import MipsOs.Fs.ReadClose

/-!
# The steps of a volume

What each call does to the invariant of a volume, and to the bytes of the files
(`Advances`).  The newest inodes change in two ways only: a creation adds one, and a
transfer adds addresses to one.

`step_advances` puts the calls together.
-/

namespace MipsOs.Fs

open MipsOs.Lib MipsOs.Lib.BlockProg TreeSystem

/-- The files are still there, and they keep their bytes but for those of `changed`. -/
structure KeepsBytes (sb : SuperBlock) (s t : BlockStore) (newest newest' : Nat → Inode)
    (changed : Nat → Nat → Prop) : Prop where
  file : ∀ i, Allocated sb s i → ¬ IsDir sb s i → Allocated sb t i ∧ ¬ IsDir sb t i
  bytes : ∀ i x b, Allocated sb s i → ¬ IsDir sb s i → ¬ changed i x →
    HasByte s (newest i) x b → HasByte t (newest' i) x b

theorem KeepsBytes.refl (sb : SuperBlock) (s : BlockStore) (newest : Nat → Inode)
    (changed : Nat → Nat → Prop) : KeepsBytes sb s s newest newest changed where
  file _ hi hdir := ⟨hi, hdir⟩
  bytes _ _ _ _ _ _ hx := hx

/-- A write to a directory block keeps the bytes of the files. -/
theorem NamesBlock.hasByte {sb : SuperBlock} {s t : BlockStore} {newest : Nat → Inode}
    {d i x : Nat} {b : UInt8} (h : NamesBlock sb s newest d) (hrec : Reconciled sb s newest)
    (hsame : ∀ c, TakenData sb s c → c ≠ (inodeOf sb s d).addrs 0 → t c = s c)
    (hi : Allocated sb s i) (hdir : ¬ IsDir sb s i) (hx : HasByte s (newest i) x b) :
    HasByte t (newest i) x b := by
  have hok := dataPart_ok hx.lt
  apply hx.congr (h.addr_eq hrec hsame hi hok)
  apply hsame _ (hrec.taken hi hok hx.present)
  intro heq
  have hplace := hrec.place_eq hi hok hx.present h.dir.toAllocated (q := .slot 0) trivial
    (heq.trans h.eq.symm)
  exact hdir (hplace.1 ▸ h.dir.isDir)

/-- The words of an inode fit when its fields do. -/
theorem fits_of_fields {n : Inode} (htype : n.type < 2 ^ 32) (hlinks : n.nLinks < 2 ^ 32)
    (hsize : n.size < 2 ^ 32) (haddrs : ∀ a, n.addrs a < 2 ^ 32) : n.Fits := by
  intro v hv
  simp only [Inode.words, List.mem_cons, List.mem_ofFn] at hv
  rcases hv with rfl | rfl | rfl | ⟨a, rfl⟩
  · exact htype
  · exact hlinks
  · exact hsize
  · exact haddrs a

theorem inodeAt_fits (b : Block) (k : Nat) : (inodeAt b k).Fits :=
  fits_of_fields (Bytes.word_lt _ _) (Bytes.word_lt _ _) (Bytes.word_lt _ _)
    fun _ => Bytes.word_lt _ _

theorem Inode.Fits.fields {n : Inode} (h : n.Fits) :
    n.type < 2 ^ 32 ∧ n.nLinks < 2 ^ 32 ∧ n.size < 2 ^ 32 :=
  ⟨h _ (by simp [Inode.words]), h _ (by simp [Inode.words]), h _ (by simp [Inode.words])⟩

/-- The files stay files. -/
theorem FileStep.file {sb : SuperBlock} {s t : BlockStore} {newest newest' : Nat → Inode}
    {i : Nat} {written : Set Place} (h : FileStep sb written s t newest newest')
    (hi : Allocated sb s i) (hdir : ¬ IsDir sb s i) : Allocated sb t i ∧ ¬ IsDir sb t i := by
  refine ⟨h.allocated_iff.mpr hi, ?_⟩
  rwa [IsDir, h.inode_eq i hi.lt]

/-- The newest inode keeps its slots. -/
theorem Extended.keepsSlots_newest {sb : SuperBlock} {s t : BlockStore} {newest : Nat → Inode}
    {i : Nat} {n m : Inode} {written : Set Place} (h : Extended sb i written s newest n t m)
    (hi : Allocated sb s i) : KeepsSlots (newest i) (withCopy newest i m i) :=
  fun a hne => h.step.block_eq ⟨i, .slot a⟩ ⟨hi, trivial, hne⟩

theorem TreeSystem.Inv.same {sb : SuperBlock} {st : TreeState} {t : BlockStore}
    (h : TreeSystem.Inv sb st) (hsame : SameDirs sb st.store t) :
    TreeSystem.Inv sb { st with store := t } := by
  obtain ⟨d, hcur, hd⟩ := h.cur
  exact ⟨h.tree.same hsame, h.own.same hsame, d, hcur, hsame.directory_iff.mpr hd⟩

namespace Volume

variable {P : Type}

section Steps

variable {sb : SuperBlock} {v v' : Volume P} {newest newest' : Nat → Inode} {i d : Nat}
  {n m : Inode} {a : Fin 13} {f g : Fin globalMaxFiles} {t : BlockStore}

/-- The copies are as before, and the store. -/
theorem Inv.congr (h : Inv sb v newest) (hstore : v'.store = v.store)
    (htree : TreeSystem.Inv sb v'.treeState) (hmatched : v'.globals.tables.Matched)
    (hhandles : ∀ f, (v'.file f).inUse = true → HandleOk sb v.store (v'.file f))
    (hcopy : ∀ i n, v'.Copy sb i n ↔ v.Copy sb i n) : Inv sb v' newest where
  tree := htree
  matched := hmatched
  reconciled := by
    rw [hstore]
    exact h.reconciled
  handles f hf := by
    rw [hstore]
    exact hhandles f hf
  old i n hi hn := by
    rw [hstore] at hi
    exact h.old i n hi ((hcopy i n).mp hn)
  covered i a hi hne := by
    rw [hstore] at hi
    obtain ⟨n, hn, hna⟩ := h.covered i a hi hne
    exact ⟨n, (hcopy i n).mpr hn, hna⟩
  single d a hd := by
    rw [hstore] at hd
    exact h.single d a hd

/-- The copies over another store with the same inode. -/
theorem copy_store (hi : inodeOf sb t i = inodeOf sb v.store i) :
    ({ v with store := t } : Volume P).Copy sb i n ↔ v.Copy sb i n := by
  rw [copy_iff, copy_iff]
  dsimp only
  rw [hi]
  rfl

/-! ## Creation -/

section Creation

variable {fa slot inodeId : Nat} {name : CString} {newBlock : Option Nat}

/-- The inode of a creation, among the newest ones. -/
def withNew (sb : SuperBlock) (t : BlockStore) (newest : Nat → Inode) (inodeId : Nat) :
    Nat → Inode := Function.update newest inodeId (inodeOf sb t inodeId)

theorem Inv.created (h : Inv sb v newest) (hr : Regions sb)
    (hname : NewName sb v.store fa slot name)
    (hc : Created sb v.store t fa slot name inodeId newBlock)
    (hblank : ∀ a, a ≠ 0 ∨ newBlock.isSome = false → (inodeOf sb t inodeId).addrs a = 0) :
    Inv sb { v with store := t } (withNew sb t newest inodeId) := by
  have hfa := h.namesBlock hr hname.dir
  have hold : ∀ {i}, Allocated sb v.store i → withNew sb t newest inodeId i = newest i := by
    intro i hi
    apply Function.update_of_ne
    rintro rfl
    exact hc.not_allocated hi
  have hcopy : ∀ {i n}, Allocated sb v.store i →
      (({ v with store := t } : Volume P).Copy sb i n ↔ v.Copy sb i n) :=
    fun hi => copy_store (hc.inodeOf_old hi)
  have hnew : ∀ {n}, ({ v with store := t } : Volume P).Copy sb inodeId n →
      n = inodeOf sb t inodeId := by
    intro n hn
    rcases copy_iff.mp hn with hdisk | ⟨f, hf, _⟩
    · exact hdisk
    · exact absurd (h.handle_allocated hf) hc.not_allocated
  constructor
  · exact h.tree.creates (.inr ⟨slot, inodeId, newBlock, hname, hc⟩)
  · exact h.matched
  · cases newBlock with
    | none => exact hc.reconciled_file h.reconciled hfa fun a => hblank a (.inr rfl)
    | some b =>
      exact hc.reconciled_dir hr h.reconciled hfa (hc.block b rfl).2.2.2.1
        fun a ha => hblank a (.inl ha)
  · intro f hf
    have hold := h.handles f hf
    refine ⟨hc.allocated_iff.mpr (.inl hold.allocated), ?_, hold.fits, fun hdir => ?_⟩
    · exact hold.type_eq.trans (congrArg Inode.type (hc.inodeOf_old hold.allocated)).symm
    · exact hold.dir ((hc.isDir_old hold.allocated).mp hdir)
  · intro i n hi hn
    rcases hc.allocated_iff.mp hi with hi | rfl
    · rw [hold hi]
      exact h.old i n hi ((hcopy hi).mp hn)
    · rw [hnew hn, withNew, Function.update_self]
      exact .refl _
  · intro i a hi hne
    rcases hc.allocated_iff.mp hi with hi | rfl
    · rw [hold hi] at hne
      obtain ⟨n, hn, hna⟩ := h.covered i a hi hne
      exact ⟨n, (hcopy hi).mpr hn, hna⟩
    · rw [withNew, Function.update_self] at hne
      exact ⟨_, .disk, hne⟩
  · intro d a hd ha
    rcases hc.directory_iff.mp hd with hd | ⟨rfl, _⟩
    · rw [hold hd.toAllocated]
      exact h.single d a hd ha
    · rw [withNew, Function.update_self]
      exact hblank a (.inl ha)

theorem Inv.created_bytes (h : Inv sb v newest) (hr : Regions sb)
    (hname : NewName sb v.store fa slot name)
    (hc : Created sb v.store t fa slot name inodeId newBlock) (changed : Nat → Nat → Prop) :
    KeepsBytes sb v.store t newest (withNew sb t newest inodeId) changed where
  file i hi hdir := ⟨hc.allocated_iff.mpr (.inl hi), fun hd => hdir ((hc.isDir_old hi).mp hd)⟩
  bytes i x b hi hdir _ hx := by
    have hne : i ≠ inodeId := by
      rintro rfl
      exact hc.not_allocated hi
    rw [withNew, Function.update_of_ne hne]
    refine (h.namesBlock hr hname.dir).hasByte h.reconciled (fun c hc' hne => ?_) hi hdir hx
    exact hc.data_eq c hc'.le hne fun hnew => (hc.block c hnew).2.2.1 hc'.used

/-- A creation takes the lowest free inode, which keeps the addresses that it has, but
for that of the block of a new directory. -/
structure CreatedFrom (sb : SuperBlock) (s t : BlockStore) (fa slot : Nat) (name : CString)
    (inodeId : Nat) (newBlock : Option Nat) : Prop
    extends Created sb s t fa slot name inodeId newBlock where
  first : FirstFree sb s inodeId
  addr_eq : ∀ a, a ≠ 0 ∨ newBlock.isSome = false →
    (inodeOf sb t inodeId).addrs a = (inodeOf sb s inodeId).addrs a

/-- What a creation comes to: nothing, or one new inode in the parent. -/
def CreatesFrom (sb : SuperBlock) (s t : BlockStore) (fa : Nat) (name : CString)
    (needsBlock : Bool) : Prop :=
  t = s ∧ (HasName sb s fa name ∨ name.bytes = []) ∨
    ∃ slot inodeId newBlock, NewName sb s fa slot name ∧
      CreatedFrom sb s t fa slot name inodeId newBlock ∧ newBlock.isSome = needsBlock

/-- The inode of the new file. -/
theorem inodeOf_madeFile (hr : Regions sb) {s : BlockStore} {faBlock : Nat}
    (hblock : sb.dataStart ≤ faBlock) (hid : inodeId < bitsPerBlock) :
    inodeOf sb (madeFile sb s faBlock slot name inodeId) inodeId =
      { inodeOf sb s inodeId with type := typeFile, nLinks := 1, size := 0 } := by
  have hold : inodeOf sb (entered sb s faBlock slot name inodeId) inodeId = inodeOf sb s inodeId :=
    inodeOf_entered hr hblock hid
  rw [madeFile, inodeOf_editInode, inodeAt_setInodeHead (inodeOffset_lt _) typeFile_lt (by decide),
    ← hold]
  rfl

theorem doMkdir_createsFrom (hr : Regions sb) {s : BlockStore} {undef : Nat}
    {unread : List (Option Block)} (htree : DirTree sb s) (hown : OwnBlocks sb s)
    (h : CanCreate sb s fa name true) :
    CreatesFrom sb s ((doMkdir sb undef fa name).flat unread s).2.2 fa name true := by
  rcases h.cases htree with ⟨hslot, hsame⟩ | ⟨n, hslot, hname, hinode, hfree⟩
  · exact .inl ⟨(doMkdir_sat_present hslot).flat unread, hsame⟩
  · have hblock := hown.le fa h.dir
    obtain ⟨inodeId, b, hfirst, hb, hbn, hbfree, ht⟩ :=
      (doMkdir_sat hr hslot hblock hinode (hfree rfl)).flat unread
    have hne : b ≠ (inodeOf sb s fa).addrs 0 := by
      rintro rfl
      exact hbfree (hown.used fa h.dir hbn)
    rw [ht]
    refine .inr ⟨n, inodeId, some b, hname,
      ⟨madeDir_created hr hblock hfirst.lt hfirst.unused hb hbn hbfree hne, hfirst, ?_⟩, rfl⟩
    intro a ha
    rw [inodeOf_madeDir hr hblock hfirst.lt hb hbn]
    exact Function.update_of_ne (ha.resolve_right (by simp)) _ _

theorem doTouch_createsFrom (hr : Regions sb) {s : BlockStore} {undef : Nat}
    {unread : List (Option Block)} (htree : DirTree sb s) (hown : OwnBlocks sb s)
    (h : CanCreate sb s fa name false) :
    CreatesFrom sb s ((doTouch sb undef fa name).flat unread s).2.2 fa name false := by
  rcases h.cases htree with ⟨hslot, hsame⟩ | ⟨n, hslot, hname, hinode, _⟩
  · exact .inl ⟨(doTouch_sat_present hslot).flat unread, hsame⟩
  · have hblock := hown.le fa h.dir
    obtain ⟨inodeId, hfirst, ht⟩ := (doTouch_sat hslot hinode).flat unread
    rw [ht]
    refine .inr ⟨n, inodeId, none, hname,
      ⟨madeFile_created hr hblock hfirst.lt hfirst.unused, hfirst, fun a _ => ?_⟩, rfl⟩
    rw [inodeOf_madeFile hr hblock hfirst.lt]

end Creation

/-! ## Removal -/

section Removal

variable {undef : RmdirUndef} {c : Nat}

theorem Inv.removed (h : Inv sb v newest) (hr : Regions sb) (hok : v.CanRemove sb c)
    (hf : Freed sb v.store t undef c) : Inv sb { v with store := t } newest := by
  have hc := hok.removable.dir
  have hparent := (hok.removable.parent h.tree.tree).1
  obtain ⟨n, hu⟩ := hf.unlinked hok.removable h.tree.tree hok.last
  have hinode : ∀ {i}, Allocated sb v.store i → inodeOf sb t i = inodeOf sb v.store i :=
    fun hi => hf.inode_eq _ hi.lt
  have hcopy : ∀ {i n}, Allocated sb v.store i →
      (({ v with store := t } : Volume P).Copy sb i n ↔ v.Copy sb i n) :=
    fun hi => copy_store (hinode hi)
  constructor
  · obtain ⟨d, hcur, hd⟩ := h.tree.cur
    refine ⟨h.tree.tree.removed h.tree.own hok.removable hf hu,
      h.tree.own.removed hc hf hok.own, d, hcur, hf.directory_iff.mpr ⟨hd, ?_⟩⟩
    rintro rfl
    exact hok.notCurrent hcur
  · exact h.matched
  · exact hf.reconciled h.reconciled (h.namesBlock hr hparent) (h.namesBlock hr hc)
      (fun a => h.single c a hc) hok.own
  · intro f hused
    have hold := h.handles f hused
    have hne : (v.file f).inodeId ≠ c := fun heq => hok.notOpen f ⟨hused, heq⟩
    refine ⟨hf.allocated_iff.mpr ⟨hold.allocated, hne⟩, ?_, hold.fits, fun hdir => hold.dir ?_⟩
    · exact hold.type_eq.trans (congrArg Inode.type (hinode hold.allocated)).symm
    · rwa [IsDir, hinode hold.allocated] at hdir
  · intro i n hi hn
    have hi := (hf.allocated_iff.mp hi).1
    exact h.old i n hi ((hcopy hi).mp hn)
  · intro i a hi hne
    have hi := (hf.allocated_iff.mp hi).1
    obtain ⟨n, hn, hna⟩ := h.covered i a hi hne
    exact ⟨n, (hcopy hi).mpr hn, hna⟩
  · intro d a hd
    exact h.single d a (hf.directory_iff.mp hd).1

theorem Inv.removed_bytes (h : Inv sb v newest) (hr : Regions sb) (hok : v.CanRemove sb c)
    (hf : Freed sb v.store t undef c) (changed : Nat → Nat → Prop) :
    KeepsBytes sb v.store t newest newest changed where
  file i hi hdir := by
    have hne : i ≠ c := fun heq => hdir (heq ▸ hok.removable.dir.isDir)
    refine ⟨hf.allocated_iff.mpr ⟨hi, hne⟩, ?_⟩
    rwa [IsDir, hf.inode_eq i hi.lt]
  bytes i x b hi hdir _ hx := by
    have hparent := (hok.removable.parent h.tree.tree).1
    exact (h.namesBlock hr hparent).hasByte h.reconciled
      (fun b hb hne => hf.data_eq b hb.le hne) hi hdir hx

end Removal

/-! ## Open files -/

section OpenFiles

variable {x : OpenFile} {caller : P} {fd : Fin maxFiles} {tables : FileTables P}

/-- The volume with another entry `f`. -/
def withFile (v : Volume P) (t : BlockStore) (f : Fin globalMaxFiles) (x : OpenFile) :
    Volume P where
  store := t
  globals := { v.globals with tables := v.globals.tables.setFile f x }

theorem withFile_self : (v.withFile t f x).file f = x := Function.update_self _ _ _

theorem withFile_of_ne (h : g ≠ f) : (v.withFile t f x).file g = v.file g :=
  Function.update_of_ne h _ _

/-- A used entry that stays in use. -/
theorem matched_setFile {tables : FileTables P} (h : tables.Matched)
    (hx : x.inUse = (tables.files f).inUse) : (tables.setFile f x).Matched where
  used_iff g := by
    refine Iff.trans ?_ (h.used_iff g)
    dsimp only [FileTables.setFile]
    by_cases hg : g = f
    · subst hg
      rw [Function.update_self, hx]
    · rw [Function.update_of_ne hg]
  unique := h.unique

/-- The copies after a change of the copy in `f`. -/
theorem Copy.of_withFile (hdisk : inodeOf sb t i = inodeOf sb v.store i)
    (hn : (v.withFile t f x).Copy sb i n) : v.Copy sb i n ∨ x.inodeId = i ∧ n = x.inode := by
  rcases copy_iff.mp hn with rfl | ⟨g, ⟨hused, hid⟩, rfl⟩
  · exact .inl (hdisk ▸ .disk)
  · by_cases hg : g = f
    · subst hg
      rw [withFile_self] at hid ⊢
      exact .inr ⟨hid, rfl⟩
    · rw [withFile_of_ne hg] at hused hid ⊢
      exact .inl (.handle ⟨hused, hid⟩)

theorem Copy.withFile (hdisk : inodeOf sb t i = inodeOf sb v.store i) (hn : v.Copy sb i n) :
    (v.withFile t f x).Copy sb i n ∨ (v.file f).inodeId = i ∧ n = (v.file f).inode := by
  rcases copy_iff.mp hn with rfl | ⟨g, ⟨hused, hid⟩, rfl⟩
  · exact .inl (hdisk ▸ .disk)
  · by_cases hg : g = f
    · subst hg
      exact .inr ⟨hid, rfl⟩
    · refine .inl ?_
      rw [← withFile_of_ne (v := v) (t := t) (x := x) hg] at hused hid ⊢
      exact .handle ⟨hused, hid⟩

theorem copy_withFile_self (hused : x.inUse = true) :
    (v.withFile t f x).Copy sb x.inodeId x.inode := by
  have hfile : (v.withFile t f x).file f = x := withFile_self
  have hcopy : (v.withFile t f x).Copy sb x.inodeId ((v.withFile t f x).file f).inode := by
    apply Copy.handle
    rw [Handle, hfile]
    exact ⟨hused, rfl⟩
  rwa [hfile] at hcopy

theorem Inv.fds_inUse (h : Inv sb v newest) (hf : v.globals.tables.fds caller fd = some f) :
    (v.file f).inUse = true := (h.matched.used_iff f).mpr ⟨caller, fd, hf⟩

/-- `seek` moves the offset and nothing else. -/
theorem Inv.seek (h : Inv sb v newest) (hf : v.globals.tables.fds caller fd = some f)
    (offset : Int) : Inv sb (v.withFile v.store f ((v.file f).seek offset)) newest := by
  have hused := h.fds_inUse hf
  refine h.congr rfl h.tree (matched_setFile h.matched rfl) (fun g hg => ?_) fun i n => ?_
  · by_cases hgf : g = f
    · subst hgf
      rw [withFile_self]
      have hold := h.handles g hused
      exact ⟨hold.allocated, hold.type_eq, hold.fits, hold.dir⟩
    · rw [withFile_of_ne hgf] at hg ⊢
      exact h.handles g hg
  · constructor
    · intro hn
      rcases hn.of_withFile rfl with hn | ⟨hid, rfl⟩
      · exact hn
      · exact .handle ⟨hused, hid⟩
    · intro hn
      rcases hn.withFile rfl (f := f) (x := (v.file f).seek offset) with hn | ⟨rfl, rfl⟩
      · exact hn
      · exact copy_withFile_self (x := (v.file f).seek offset) hused

/-! ### `open` -/

/-- The tables after `open` of an inode, over the same store. -/
theorem Inv.opened [DecidableEq P] (h : Inv sb v newest) (hr : Regions sb) {inodeId access : Nat}
    (hi : Allocated sb v.store inodeId)
    (hopen : v.globals.tables.openFile caller inodeId access (inodeOf sb v.store inodeId) =
      some (fd, tables)) :
    Inv sb { v with globals := { v.globals with tables := tables } } newest := by
  obtain ⟨f, hunused, _, hfiles, _⟩ := FileTables.openFile_cases hopen
  have hself : tables.files f = OpenFile.mk true inodeId access 0 (inodeOf sb v.store inodeId) := by
    rw [hfiles, Function.update_self]
  have hother : ∀ {g}, g ≠ f → tables.files g = v.file g := by
    intro g hg
    rw [hfiles, Function.update_of_ne hg]
  refine h.congr rfl h.tree (h.matched.openFile hopen) (fun g hg => ?_) fun i n => ?_
  · by_cases hgf : g = f
    · subst hgf
      dsimp only [file]
      rw [hself]
      exact ⟨hi, rfl, inodeAt_fits _ _, fun hdir => (h.namesBlock hr ⟨hi, hdir⟩).ne_zero⟩
    · dsimp only [file] at hg ⊢
      rw [hother hgf] at hg ⊢
      exact h.handles g hg
  · rw [copy_iff, copy_iff]
    constructor
    · rintro (rfl | ⟨g, ⟨hused, hid⟩, rfl⟩)
      · exact .inl rfl
      · dsimp only [file] at hused hid ⊢
        by_cases hgf : g = f
        · subst hgf
          rw [hself] at hid ⊢
          subst hid
          exact .inl rfl
        · rw [hother hgf] at hused hid ⊢
          exact .inr ⟨g, ⟨hused, hid⟩, rfl⟩
    · rintro (rfl | ⟨g, ⟨hused, hid⟩, rfl⟩)
      · exact .inl rfl
      · have hgf : g ≠ f := by
          rintro rfl
          rw [file, hunused] at hused
          cases hused
        refine .inr ⟨g, ?_, ?_⟩
        · dsimp only [Handle, file]
          rw [hother hgf]
          exact ⟨hused, hid⟩
        · dsimp only [file]
          rw [hother hgf]

/-! ### Transfers -/

section Transfers

variable {written : Set Place}

/-- The copy that `find_data_block` leaves can be written back. -/
theorem Inv.extended_fits (h : Inv sb v newest) (hr : Regions sb) (hf : (v.file f).inUse = true)
    (hext : Extended sb (v.file f).inodeId written v.store newest (v.file f).inode t m) :
    m.Fits := by
  have hold := h.handles f hf
  obtain ⟨htype, hlinks, hsize⟩ := hold.fits.fields
  have hmax : maxFileBlocks < 2 ^ 32 := by decide
  refine fits_of_fields ?_ ?_ (lt_of_le_of_lt hext.size_le (max_lt hsize hmax)) fun a => ?_
  · rwa [hext.head.type_eq]
  · rwa [hext.head.nLinks_eq]
  · by_cases hzero : m.addrs a = 0
    · rw [hzero]
      decide
    · have heq : (withCopy newest (v.file f).inodeId m (v.file f).inodeId).addrs a = m.addrs a :=
        keepsSlots_withCopy _ _ _ a hzero
      have hlt := (hext.reconciled.taken (hext.step.allocated_iff.mpr hold.allocated)
        (p := .slot a) trivial (heq.trans_ne hzero)).lt
      have hsize := hr.size_lt
      rw [Part.addr, heq] at hlt
      omega

/-- A transfer through the entry `f`. -/
theorem Inv.extended (h : Inv sb v newest) (hr : Regions sb) (hf : (v.file f).inUse = true)
    (hdir : ¬ IsDir sb v.store (v.file f).inodeId)
    (hwritten : written ⊆ placesOf (v.file f).inodeId)
    (hext : Extended sb (v.file f).inodeId written v.store newest (v.file f).inode t m)
    (offset : Int) :
    Inv sb (v.withFile t f { v.file f with inode := m, offset := offset })
      (withCopy newest (v.file f).inodeId m) := by
  have hstep := hext.step
  have hfile := h.handles f hf
  have hsame : SameDirs sb v.store t := by
    refine hstep.sameDirs (fun d hd => h.namesBlock hr hd) fun o ho hd => hdir ?_
    rw [← show o.inodeId = (v.file f).inodeId from hwritten ho]
    exact hd.isDir
  have hdisk : ∀ {i}, Allocated sb v.store i → inodeOf sb t i = inodeOf sb v.store i :=
    fun hi => hstep.inode_eq _ hi.lt
  constructor
  · exact h.tree.same hsame
  · exact matched_setFile h.matched rfl
  · exact hext.reconciled
  · intro g hg
    by_cases hgf : g = f
    · subst hgf
      rw [withFile_self]
      refine ⟨hstep.allocated_iff.mpr hfile.allocated, ?_, h.extended_fits hr hf hext, ?_⟩
      · exact hext.head.type_eq.trans
          (hfile.type_eq.trans (congrArg Inode.type (hdisk hfile.allocated)).symm)
      · intro hd
        rw [IsDir] at hd
        exact absurd ((congrArg Inode.type (hdisk hfile.allocated)).symm.trans hd) hdir
    · rw [withFile_of_ne hgf] at hg ⊢
      have hold := h.handles g hg
      refine ⟨hstep.allocated_iff.mpr hold.allocated, ?_, hold.fits, fun hd => hold.dir ?_⟩
      · exact hold.type_eq.trans (congrArg Inode.type (hdisk hold.allocated)).symm
      · exact (congrArg Inode.type (hdisk hold.allocated)).symm.trans hd
  · intro i n hi hn
    have hi := hstep.allocated_iff.mp hi
    have hold : KeepsSlots (newest i) (withCopy newest (v.file f).inodeId m i) := by
      by_cases hid : i = (v.file f).inodeId
      · subst hid
        exact hext.keepsSlots_newest hi
      · rw [withCopy_of_ne hid]
        exact .refl _
    rcases hn.of_withFile (hdisk hi) with hn | ⟨rfl, rfl⟩
    · exact (h.old i n hi hn).trans hold
    · exact keepsSlots_withCopy _ _ _
  · intro i a hi hne
    have hi := hstep.allocated_iff.mp hi
    by_cases hid : i = (v.file f).inodeId ∧ m.addrs a ≠ 0
    · obtain ⟨rfl, hma⟩ := hid
      exact ⟨m, copy_withFile_self (x := { v.file f with inode := m, offset := offset }) hf, hma⟩
    · have hne : (newest i).addrs a ≠ 0 := by
        by_cases hid' : i = (v.file f).inodeId
        · have hzero : m.addrs a = 0 := not_not.mp fun hma => hid ⟨hid', hma⟩
          subst hid'
          rwa [withCopy_self, Inode.join_of_zero hzero] at hne
        · rwa [withCopy_of_ne hid'] at hne
      obtain ⟨n, hn, hna⟩ := h.covered i a hi hne
      rcases hn.withFile (hdisk hi) (f := f) (x := { v.file f with inode := m, offset := offset })
        with hn | ⟨rfl, rfl⟩
      · exact ⟨n, hn, hna⟩
      · exact absurd ⟨rfl, (hext.keeps a hna).trans_ne hna⟩ hid
  · intro d a hd
    have hd := hsame.directory_iff.mp hd
    have hne : d ≠ (v.file f).inodeId := by
      rintro rfl
      exact hdir hd.isDir
    rw [withCopy_of_ne hne]
    exact h.single d a hd

end Transfers

/-! ### `close` -/

section Close

/-- A write to the inodes leaves the bitmaps and the data blocks. -/
structure InodeWrite (sb : SuperBlock) (s t : BlockStore) (id : Nat) (n : Inode) : Prop where
  used_iff : ∀ i, InodeUsed sb t i ↔ InodeUsed sb s i
  blockUsed_iff : ∀ b < sb.size, BlockUsed sb t b ↔ BlockUsed sb s b
  self : inodeOf sb t id = n
  other : ∀ i < bitsPerBlock, i ≠ id → inodeOf sb t i = inodeOf sb s i
  data_eq : ∀ c, sb.dataStart ≤ c → t c = s c

/-- The other places of the block stay. -/
theorem inodeAt_putInode_of_ne {k l : Nat} (hne : l ≠ k) (b : Block) :
    inodeAt (putInode b k n) l = inodeAt b l := by
  have hlength : n.words.length = 16 := by simp [Inode.words]
  apply inodeAt_congr
  intro a ha
  rcases Nat.lt_or_gt_of_ne hne with hlt | hgt
  · exact Bytes.word_putWords_of_lt _ (by omega) b
  · exact Bytes.word_putWords_of_ge _ (by omega) b

theorem closed_inodeWrite (hr : Regions sb) {s : BlockStore} (hi : i < bitsPerBlock)
    (hn : n.Fits) : InodeWrite sb s (closed sb s i n) i n where
  used_iff _ := inodeUsed_editInode hr hi
  blockUsed_iff _ hb := blockUsed_editInode hr hi hb
  self := inodeOf_closed hn i
  other _ hj hne := inodeOf_editInode_of_ne hr hi hj hne fun _ hl x => inodeAt_putInode_of_ne hl x
  data_eq _ hc := editInode_data hr hi hc

/-- The copy of an open directory has its block. -/
theorem Inv.addr_handle (h : Inv sb v newest) (hr : Regions sb) (hf : v.Handle f d)
    (hd : Directory sb v.store d) :
    (v.file f).inode.addrs 0 = (inodeOf sb v.store d).addrs 0 := by
  have hne : (v.file f).inode.addrs 0 ≠ 0 := by
    apply (h.handles f hf.1).dir
    rw [hf.2]
    exact hd.isDir
  rw [← h.old d _ hd.toAllocated (.handle hf) 0 hne]
  exact (h.namesBlock hr hd).eq

theorem Inv.sameDirs_close (h : Inv sb v newest) (hr : Regions sb) (hf : v.Handle f i)
    (hw : InodeWrite sb v.store t i (v.file f).inode) : SameDirs sb v.store t := by
  have haddr : ∀ d, Directory sb v.store d →
      (inodeOf sb t d).addrs 0 = (inodeOf sb v.store d).addrs 0 := by
    intro d hd
    by_cases hid : d = i
    · subst hid
      rw [hw.self, h.addr_handle hr hf hd]
    · rw [hw.other d hd.lt hid]
  refine ⟨hw.used_iff, fun j hj => ?_, haddr, fun d hd => ?_,
    fun b hb => (hw.blockUsed_iff b hb).mpr⟩
  · by_cases hid : j = i
    · subst hid
      rw [hw.self, (h.handles f hf.1).type_eq, hf.2]
    · rw [hw.other j hj hid]
  · rw [dirOf, haddr d hd]
    exact hw.data_eq _ (h.tree.own.le d hd)

theorem InodeWrite.taken_iff {s : BlockStore} {c : Nat} (hw : InodeWrite sb s t i n) :
    TakenData sb t c ↔ TakenData sb s c := by
  constructor
  · intro hc
    exact ⟨hc.le, hc.lt, (hw.blockUsed_iff c hc.lt).mp hc.used⟩
  · intro hc
    exact ⟨hc.le, hc.lt, (hw.blockUsed_iff c hc.lt).mpr hc.used⟩

theorem InodeWrite.addr_eq {s : BlockStore} (hw : InodeWrite sb s t i n)
    (hrec : Reconciled sb s newest) {j : Nat} (hj : Allocated sb s j) {p : Part} (hp : p.Ok) :
    p.addr t (newest j) = p.addr s (newest j) := by
  apply addr_congr _ hp
  intro q hq hne
  exact hw.data_eq _ (hrec.taken hj hq.ok hne).le

/-- The copies that `close` leaves: the one of the entry is on the disk, and the other
open files keep theirs. -/
theorem copy_closed [DecidableEq P] (hused : (v.file f).inUse = true)
    (hfd : v.globals.tables.fds caller fd = some f)
    (hclose : v.globals.tables.closeFile caller fd = some tables)
    (hw : InodeWrite sb v.store t (v.file f).inodeId (v.file f).inode) {j : Nat}
    (hj : j < bitsPerBlock) :
    ({ store := t, globals := { v.globals with tables := tables } } : Volume P).Copy sb j n ↔
      (v.Handle f j ∧ n = (v.file f).inode) ∨ (¬ v.Handle f j ∧ n = inodeOf sb v.store j) ∨
        ∃ g ≠ f, v.Handle g j ∧ n = (v.file g).inode := by
  obtain ⟨f', hf', hfiles, _⟩ := FileTables.closeFile_cases hclose
  obtain rfl : f' = f := Option.some.inj (hf'.symm.trans hfd)
  have hother : ∀ g ≠ f', tables.files g = v.file g := fun g hne => by
    rw [hfiles, Function.update_of_ne hne]
  have hopen : (∃ g, (tables.files g).inUse = true ∧ (tables.files g).inodeId = j ∧
      n = (tables.files g).inode) ↔ ∃ g ≠ f', v.Handle g j ∧ n = (v.file g).inode := by
    constructor
    · rintro ⟨g, huse, hid, rfl⟩
      have hne : g ≠ f' := by
        rintro rfl
        rw [hfiles, Function.update_self] at huse
        cases huse
      rw [hother g hne] at huse hid ⊢
      exact ⟨g, hne, ⟨huse, hid⟩, rfl⟩
    · rintro ⟨g, hne, ⟨huse, hid⟩, rfl⟩
      refine ⟨g, ?_⟩
      rw [hother g hne]
      exact ⟨huse, hid, rfl⟩
  have hdisk : n = inodeOf sb t j ↔ (v.Handle f' j ∧ n = (v.file f').inode) ∨
      (¬ v.Handle f' j ∧ n = inodeOf sb v.store j) := by
    by_cases hid : (v.file f').inodeId = j
    · subst hid
      rw [hw.self]
      simp [Handle, hused]
    · rw [hw.other j hj (Ne.symm hid)]
      simp [Handle, hid]
  rw [copy_iff, ← or_assoc, ← hdisk, ← hopen]
  simp only [Handle, file, and_assoc]

/-- `close` writes the copy of the entry `f` and gives the entry back. -/
theorem Inv.close [DecidableEq P] (h : Inv sb v newest) (hr : Regions sb)
    (hfd : v.globals.tables.fds caller fd = some f) (hok : v.WritesBackAll sb f)
    (hclose : v.globals.tables.closeFile caller fd = some tables)
    (hw : InodeWrite sb v.store t (v.file f).inodeId (v.file f).inode) :
    Inv sb { store := t, globals := { v.globals with tables := tables } } newest := by
  have hused := h.fds_inUse hfd
  have hsame := h.sameDirs_close hr ⟨hused, rfl⟩ hw
  constructor
  · exact h.tree.same hsame
  · exact h.matched.closeFile hclose
  · exact h.reconciled.congr (fun _ => hsame.allocated_iff) (fun _ => hw.taken_iff)
      fun j hj p hp => hw.addr_eq h.reconciled hj hp
  · intro g hg
    have heq : tables.files g = v.file g := by
      obtain ⟨f', hf', hfiles, _⟩ := FileTables.closeFile_cases hclose
      dsimp only [file] at hg
      rw [hfiles] at hg ⊢
      rcases eq_or_ne g f' with rfl | hne
      · rw [Function.update_self] at hg
        cases hg
      · rw [Function.update_of_ne hne]
    dsimp only [file] at hg ⊢
    rw [heq] at hg ⊢
    have hold := h.handles g hg
    have htype := hsame.type_eq _ hold.allocated.lt
    refine ⟨hsame.allocated_iff.mpr hold.allocated, hold.type_eq.trans htype.symm, hold.fits, ?_⟩
    intro hdir
    exact hold.dir (htype.symm.trans hdir)
  · intro j n hj hn
    have hj := hsame.allocated_iff.mp hj
    rcases (copy_closed hused hfd hclose hw hj.lt).mp hn with
      ⟨hf, rfl⟩ | ⟨_, rfl⟩ | ⟨g, _, hg, rfl⟩
    · exact h.old j _ hj (.handle hf)
    · exact h.old j _ hj .disk
    · exact h.old j _ hj (.handle hg)
  · intro j a hj hne
    have hj := hsame.allocated_iff.mp hj
    have hcopy : ∀ n, ((v.Handle f j ∧ n = (v.file f).inode) ∨
        (¬ v.Handle f j ∧ n = inodeOf sb v.store j) ∨
        ∃ g ≠ f, v.Handle g j ∧ n = (v.file g).inode) → n.addrs a ≠ 0 → ∃ n,
          ({ store := t, globals := { v.globals with tables := tables } } : Volume P).Copy sb j n ∧
            n.addrs a ≠ 0 := fun n hn hna =>
          ⟨n, (copy_closed hused hfd hclose hw hj.lt).mpr hn, hna⟩
    obtain ⟨n, hn, hna⟩ := h.covered j a hj hne
    rcases copy_iff.mp hn with rfl | ⟨g, hg, rfl⟩
    · by_cases hf : v.Handle f j
      · rcases hok a (hf.2.symm ▸ hna) with hfa | ⟨g, hgf, hg, hga⟩
        · exact hcopy _ (.inl ⟨hf, rfl⟩) hfa
        · exact hcopy _ (.inr (.inr ⟨g, hgf, hf.2 ▸ hg, rfl⟩)) hga
      · exact hcopy _ (.inr (.inl ⟨hf, rfl⟩)) hna
    · by_cases hgf : g = f
      · subst hgf
        exact hcopy _ (.inl ⟨hg, rfl⟩) hna
      · exact hcopy _ (.inr (.inr ⟨g, hgf, hg, rfl⟩)) hna
  · intro d a hd
    exact h.single d a (hsame.directory_iff.mp hd)

theorem Inv.close_bytes (h : Inv sb v newest)
    (hw : InodeWrite sb v.store t i n) (hsame : SameDirs sb v.store t)
    (changed : Nat → Nat → Prop) : KeepsBytes sb v.store t newest newest changed where
  file j hj hdir := by
    refine ⟨hsame.allocated_iff.mpr hj, ?_⟩
    rwa [IsDir, hsame.type_eq j hj.lt]
  bytes j x b hj _ _ hx := by
    have hok := dataPart_ok hx.lt
    apply hx.congr (hw.addr_eq h.reconciled hj hok)
    exact hw.data_eq _ (h.reconciled.taken hj hok hx.present).le

end Close

end OpenFiles

/-! ## The calls -/

section Calls

variable {caller : P} {fd : Fin maxFiles} {unread : List (Option Block)} {undef : Nat}

/-- The bytes that a call writes: byte `x` of inode `i`. -/
def written (v : Volume P) : VolumeOp P → Nat → Nat → Option UInt8
  | .call (.write _ caller fd buff) _, i, x =>
    (v.globals.tables.fds caller fd).bind fun f =>
      if (v.file f).inodeId = i ∧ (v.file f).offset.toNat ≤ x then
        buff[x - (v.file f).offset.toNat]?
      else none
  | _, _, _ => none

/-- The step keeps the invariant and the bytes of the files, and the bytes that it writes
are there. -/
structure Advances (sb : SuperBlock) (v v' : Volume P) (newest newest' : Nat → Inode)
    (op : VolumeOp P) : Prop where
  inv : Inv sb v' newest'
  kept : KeepsBytes sb v.store v'.store newest newest' fun i x => (v.written op i x).isSome
  wrote : ∀ i x b, v.written op i x = some b →
    Allocated sb v'.store i ∧ ¬ IsDir sb v'.store i ∧ HasByte v'.store (newest' i) x b

/-- A call that writes no file. -/
theorem Advances.of_kept {op : VolumeOp P} (hwritten : ∀ i x, v.written op i x = none)
    (hinv : Inv sb v' newest') (hkept : KeepsBytes sb v.store v'.store newest newest'
      fun i x => (v.written op i x).isSome) : Advances sb v v' newest newest' op := by
  refine ⟨hinv, hkept, fun i x b hb => ?_⟩
  rw [hwritten] at hb
  cases hb

theorem Inv.createsFrom (h : Inv sb v newest) (hr : Regions sb) {fa : Nat} {name : CString}
    {needsBlock : Bool} {op : VolumeOp P} (hwritten : ∀ i x, v.written op i x = none)
    (hblank : v.BlankNext sb needsBlock)
    (hc : CreatesFrom sb v.store t fa name needsBlock) :
    ∃ newest', Advances sb v { v with store := t } newest newest' op := by
  rcases hc with ⟨rfl, _⟩ | ⟨slot, inodeId, newBlock, hname, hc, hblock⟩
  · exact ⟨newest, .of_kept hwritten h (.refl _ _ _ _)⟩
  · have hzero : ∀ a, a ≠ 0 ∨ newBlock.isSome = false → (inodeOf sb t inodeId).addrs a = 0 := by
      intro a ha
      rw [hc.addr_eq a ha]
      exact hblank inodeId hc.first a (hblock ▸ ha)
    exact ⟨_, .of_kept hwritten (h.created hr hname hc.toCreated hzero)
      (h.created_bytes hr hname hc.toCreated _)⟩

/-- The piece of the arithmetic that the largest file is larger than any range of an
`int`. -/
theorem CanTransfer.max {piece : Inode → Nat → Prog (Inode × List UInt8)} {file : OpenFile}
    {size : Nat} (h : v.CanTransfer sb piece file size unread) :
    file.offset.toNat + size ≤ maxFileBlocks * blockSize := by
  have hinside := h.inside
  have hlarge : 2 ^ 31 ≤ maxFileBlocks * blockSize := by decide
  omega

theorem Inv.slotsKnown (h : Inv sb v newest) {piece : Inode → Nat → Prog (Inode × List UInt8)}
    {size : Nat} (hf : (v.file f).inUse = true)
    (hok : v.CanTransfer sb piece (v.file f) size unread) :
    SlotsKnown (v.file f).inode (newest (v.file f).inodeId) (v.file f).offset.toNat size :=
  fun k hk => h.slotKnown (h.handles f hf).allocated (hok.knows k hk)

/-- The copy in the entry `f` is an old one. -/
theorem Inv.keepsSlots_file (h : Inv sb v newest) (hf : (v.file f).inUse = true) :
    KeepsSlots (v.file f).inode (newest (v.file f).inodeId) :=
  h.old _ _ (h.handles f hf).allocated (.handle ⟨hf, rfl⟩)

/-! ### `write` and `read` -/

/-- What the loop of `write` comes to. -/
abbrev writeRun (sb : SuperBlock) (undef : Nat) (file : OpenFile) (buff : List UInt8)
    (unread : List (Option Block)) (s : BlockStore) :
    (Inode × Nat) × List (Option Block) × BlockStore :=
  (writeFrom sb undef buff file.offset.toNat buff.length file.inode 0 file.offset.toNat).flat
    unread s

/-- What the loop of `read` comes to. -/
abbrev readRun (sb : SuperBlock) (undef : Nat) (file : OpenFile) (size : Nat)
    (unread : List (Option Block)) (s : BlockStore) :
    (Inode × List UInt8 × Nat) × List (Option Block) × BlockStore :=
  (readFrom sb undef size file.offset.toNat size file.inode [] file.offset.toNat).flat unread s

theorem step_write [DecidableEq P] {buff : List UInt8}
    (hfd : v.globals.tables.fds caller fd = some f) :
    step sb v (.call (.write undef caller fd buff) unread) =
      some (v.withFile (writeRun sb undef (v.file f) buff unread v.store).2.2 f
        { v.file f with
          inode := (writeRun sb undef (v.file f) buff unread v.store).1.1
          offset := (writeRun sb undef (v.file f) buff unread v.store).1.2 }) := by
  simp only [step, FsCall.prog, hfd, Option.bind_eq_bind, Option.bind_some, Option.map_some,
    Option.pure_def, writeFile, flat_bind]
  rfl

theorem step_read [DecidableEq P] {size : Nat}
    (hfd : v.globals.tables.fds caller fd = some f) :
    step sb v (.call (.read undef caller fd size) unread) =
      some (v.withFile (readRun sb undef (v.file f) size unread v.store).2.2 f
        { v.file f with
          inode := (readRun sb undef (v.file f) size unread v.store).1.1
          offset := (readRun sb undef (v.file f) size unread v.store).1.2.2 }) := by
  simp only [step, FsCall.prog, hfd, Option.bind_eq_bind, Option.bind_some, Option.map_some,
    Option.pure_def, readFile, flat_bind]
  rfl

theorem Inv.write (h : Inv sb v newest) (hr : Regions sb) {buff : List UInt8}
    (hfd : v.globals.tables.fds caller fd = some f)
    (hok : v.CanTransfer sb (writePiece sb undef buff (v.file f).offset.toNat) (v.file f)
      buff.length unread) :
    ∃ newest', Advances sb v
      (v.withFile (writeRun sb undef (v.file f) buff unread v.store).2.2 f
        { v.file f with
          inode := (writeRun sb undef (v.file f) buff unread v.store).1.1
          offset := (writeRun sb undef (v.file f) buff unread v.store).1.2 })
      newest newest' (.call (.write undef caller fd buff) unread) := by
  have hused := h.fds_inUse hfd
  have hi := (h.handles f hused).allocated
  obtain ⟨hto, hoff⟩ := writeFrom_extended hr h.reconciled hi (h.keepsSlots_file hused) hok.max
    (h.slotsKnown hused hok) hok.room
  have hext := hto.extended
  have hwrote := hto.wrote
  rw [List.take_length] at hwrote
  have hwritten : ∀ i x b, v.written (.call (.write undef caller fd buff) unread) i x = some b ↔
      (v.file f).inodeId = i ∧ (v.file f).offset.toNat ≤ x ∧
        buff[x - (v.file f).offset.toNat]? = some b := by
    intro i x b
    rw [written, hfd, Option.bind_some]
    simp [and_assoc]
  refine ⟨_, h.extended hr hused hok.notDir subset_rfl hext _,
    ⟨fun _ => hext.step.file, ?_⟩, ?_⟩
  · intro i x b hi hdir hnot hx
    refine hwrote.outside i x b hi (fun hid => ?_) hx
    subst hid
    by_contra hin
    have hlt : x - (v.file f).offset.toNat < buff.length := by omega
    have hsome := (hwritten _ x _).mpr ⟨rfl, by omega, List.getElem?_eq_getElem hlt⟩
    exact hnot (Option.isSome_of_eq_some hsome)
  · intro i x b hb
    obtain ⟨rfl, hle, hget⟩ := (hwritten i x b).mp hb
    obtain ⟨hlt, hval⟩ := List.getElem?_eq_some_iff.mp hget
    obtain ⟨halloc, hdir⟩ := hext.step.file hi hok.notDir
    refine ⟨halloc, hdir, ?_⟩
    have hbyte := hwrote.inside _ hlt
    rw [List.getD_eq_getElem _ _ hlt, hval] at hbyte
    rwa [show (v.file f).offset.toNat + (x - (v.file f).offset.toNat) = x by omega] at hbyte

theorem Inv.read (h : Inv sb v newest) (hr : Regions sb) {size : Nat}
    (hfd : v.globals.tables.fds caller fd = some f)
    (hok : v.CanTransfer sb (readPiece sb undef (v.file f).offset.toNat size) (v.file f) size
      unread) :
    ∃ newest', Advances sb v
      (v.withFile (readRun sb undef (v.file f) size unread v.store).2.2 f
        { v.file f with
          inode := (readRun sb undef (v.file f) size unread v.store).1.1
          offset := (readRun sb undef (v.file f) size unread v.store).1.2.2 })
      newest newest' (.call (.read undef caller fd size) unread) := by
  have hused := h.fds_inUse hfd
  have hi := (h.handles f hused).allocated
  obtain ⟨hto, _⟩ := readFrom_extended hr h.reconciled hi (h.keepsSlots_file hused) hok.max
    (h.slotsKnown hused hok) hok.room
  have hext := hto.extended
  refine ⟨_, .of_kept (fun _ _ => rfl)
    (h.extended hr hused hok.notDir (Set.empty_subset _) hext _)
    ⟨fun _ => hext.step.file, fun i x b hi _ _ hx => ?_⟩⟩
  exact hext.step.hasByte hi (Set.notMem_empty _) hx

/-! ### `open` and `close` -/

/-- `open` reads the inode, and fills an entry when there is one for the caller. -/
theorem openFound_flat [DecidableEq P] (tables : FileTables P) (caller : P) (access : Nat)
    {inodeId : Nat} {s : BlockStore} (hi : Allocated sb s inodeId) :
    (openFound sb tables caller access (asUint inodeId)).flat unread s =
      ((tables.openFile caller inodeId access (inodeOf sb s inodeId)).elim
        ((-1 : Int), tables) fun r => (((r.1 : Nat) : Int), r.2), unread, s) := by
  have hid : asInt (asUint inodeId) = inodeId := by
    rw [hi.asUint_eq, hi.asInt_eq]
  have hpos : ¬ ((inodeId : Int) < 0) := by omega
  have hinode : inodeAt (s (inodeInBlock sb inodeId)) (inodeOffset inodeId) =
      inodeOf sb s inodeId := rfl
  simp only [openFound, hid, if_neg hpos, flat_bind, flat_blockGet_read, flat_read,
    flat_blockCommit, Int.toNat_natCast, hinode]
  cases tables.openFile caller inodeId access (inodeOf sb s inodeId) with
  | none => rfl
  | some r => rfl

theorem openFound_flat_error [DecidableEq P] {tables : FileTables P} {access : Nat}
    {s : BlockStore} :
    (openFound sb tables caller access (asUint (-1))).flat unread s =
      ((-1, tables), unread, s) := by
  have herror : asInt (asUint (-1)) = -1 := by
    unfold asInt
    rfl
  rw [openFound, herror, if_pos (by decide)]
  rfl

theorem Inv.openFile_flat [DecidableEq P] (h : Inv sb v newest) (name : CString) (access : Nat) :
    ∃ r, (openFile sb v.globals.cur.inode v.globals.tables caller name access).flat unread v.store =
        (r, unread, v.store) ∧
      (r.2 = v.globals.tables ∨ ∃ fd inodeId, Allocated sb v.store inodeId ∧
        v.globals.tables.openFile caller inodeId access (inodeOf sb v.store inodeId) =
          some (fd, r.2)) := by
  unfold openFile
  split
  · exact ⟨_, rfl, .inl rfl⟩
  · rw [flat_bind, doFind_flat]
    dsimp only
    obtain ⟨d, hcur, hd⟩ := h.tree.cur
    have hcur : v.globals.cur.inode = d := hcur
    rw [hcur]
    obtain ⟨e, he, halloc⟩ := h.tree.tree.pathOn_allocated hd.toAllocated name
    have he : (pathOn sb v.store d name).inodeId = e := he
    have halloc : Allocated sb v.store e := halloc
    rw [he]
    split
    · rw [openFound_flat_error (P := P)]
      exact ⟨_, rfl, .inl rfl⟩
    · rw [openFound_flat v.globals.tables caller access halloc]
      cases hopen : v.globals.tables.openFile caller e access (inodeOf sb v.store e) with
      | none => exact ⟨_, rfl, .inl rfl⟩
      | some r => exact ⟨_, rfl, .inr ⟨r.1, e, halloc, hopen⟩⟩

/-- A call that answers the globals that it was given. -/
theorem step_call [DecidableEq P] {α : Type} {c : FsCall P} (p : Prog α)
    (h : c.prog sb v.globals = some (p >>= fun _ => pure v.globals)) :
    step sb v (.call c unread) = some { v with store := (p.flat unread v.store).2.2 } := by
  rw [step, h, Option.map_some, flat_bind]
  rfl

theorem step_cd [DecidableEq P] {undefName path : CString} :
    step sb v (.call (.cd undefName path) unread) =
      some { store := v.store
             globals := { v.globals with
               cur := ((doCd sb undefName v.globals.cur path).flat unread v.store).1 } } := by
  simp only [step, FsCall.prog, Option.map_some, flat_bind, doCd_flat]
  rfl

theorem step_seek [DecidableEq P] {offset : Int}
    (hfd : v.globals.tables.fds caller fd = some f) :
    step sb v (.call (.seek caller fd offset) unread) =
      some (v.withFile v.store f ((v.file f).seek offset)) := by
  simp only [step, FsCall.prog, hfd, Option.bind_eq_bind, Option.bind_some, Option.map_some,
    Option.pure_def]
  rfl

theorem step_opens [DecidableEq P] {name : CString} {access : Nat}
    {r : Int × FileTables P}
    (h : (openFile sb v.globals.cur.inode v.globals.tables caller name access).flat unread
      v.store = (r, unread, v.store)) :
    step sb v (.call (.opens caller name access) unread) =
      some { v with globals := { v.globals with tables := r.2 } } := by
  simp only [step, FsCall.prog, Option.map_some, flat_bind, h]
  rfl

theorem closeFile_eq [DecidableEq P] {tables : FileTables P}
    (hfd : tables.fds caller fd = some f) : tables.closeFile caller fd =
      some { files := Function.update tables.files f { tables.files f with inUse := false }
             fds := tables.setFd caller fd none } := by
  rw [FileTables.closeFile, hfd]

theorem step_closes [DecidableEq P] (hfd : v.globals.tables.fds caller fd = some f)
    (hclose : v.globals.tables.closeFile caller fd = some tables) :
    step sb v (.call (.closes caller fd) unread) =
      some { store := closed sb v.store (v.file f).inodeId (v.file f).inode
             globals := { v.globals with tables := tables } } := by
  simp only [step, FsCall.prog, hfd, hclose, Option.bind_eq_bind, Option.bind_some,
    Option.map_some, Option.pure_def, flat_bind]
  rfl

theorem step_advances [DecidableEq P] (hr : Regions sb) (h : Inv sb v newest) {op : VolumeOp P}
    (hok : Sound sb v op) (hstep : step sb v op = some v') :
    ∃ newest', Advances sb v v' newest newest' op := by
  cases op with
  | rmdir undef c unread =>
    obtain rfl := Option.some.inj hstep
    have hdir := h.namesBlock hr hok.removable.dir
    have hparent := (hok.removable.parent h.tree.tree).1
    have hplace := h.reconciled.taken hdir.dir.toAllocated (p := .slot 0) trivial
      (hdir.eq.trans_ne hdir.ne_zero)
    have hfreed : freedBlock sb v.store c < sb.size := by
      rw [hok.own, dirBlockOf, ← hdir.eq]
      exact hplace.lt
    have hf := doRmdir_freed hr hok.removable.dir.lt (h.tree.own.le _ hparent) hfreed undef unread
    exact ⟨newest, .of_kept (fun _ _ => rfl) (h.removed hr hok hf) (h.removed_bytes hr hok hf _)⟩
  | call c unread =>
    cases c with
    | ls inodeId =>
      obtain rfl := Option.some.inj ((step_call (doLs sb inodeId) rfl).symm.trans hstep)
      exact ⟨newest, .of_kept (fun _ _ => rfl) h (.refl _ _ _ _)⟩
    | find path =>
      obtain rfl := Option.some.inj ((step_call (doFind sb _ path) rfl).symm.trans hstep)
      rw [doFind_flat]
      exact ⟨newest, .of_kept (fun _ _ => rfl) h (.refl _ _ _ _)⟩
    | findDir path =>
      obtain rfl := Option.some.inj ((step_call (doFindDir sb _ path) rfl).symm.trans hstep)
      rw [doFindDir_flat]
      exact ⟨newest, .of_kept (fun _ _ => rfl) h (.refl _ _ _ _)⟩
    | cd undefName path =>
      obtain rfl := Option.some.inj (step_cd.symm.trans hstep)
      have htree := @TreeSystem.Inv.cd sb v.treeState unread h.tree path undefName
      have hstore : ((doCd sb undefName v.treeState.cur path).flat unread v.treeState.store).2.2 =
          v.store := by
        rw [doCd_flat]
        rfl
      rw [hstore] at htree
      refine ⟨newest, .of_kept (fun _ _ => rfl)
        (h.congr rfl htree h.matched h.handles fun i n => ?_) (.refl _ _ _ _)⟩
      rw [copy_iff, copy_iff]
      rfl
    | mkdir undef fa name =>
      obtain rfl := Option.some.inj ((step_call (doMkdir sb undef fa name) rfl).symm.trans hstep)
      have hnone : ∀ i x, v.written (.call (.mkdir undef fa name) unread) i x = none :=
        fun _ _ => rfl
      exact h.createsFrom hr hnone hok.2 (doMkdir_createsFrom hr h.tree.tree h.tree.own hok.1)
    | touch undef fa name =>
      obtain rfl := Option.some.inj ((step_call (doTouch sb undef fa name) rfl).symm.trans hstep)
      have hnone : ∀ i x, v.written (.call (.touch undef fa name) unread) i x = none :=
        fun _ _ => rfl
      exact h.createsFrom hr hnone hok.2 (doTouch_createsFrom hr h.tree.tree h.tree.own hok.1)
    | opens caller name access =>
      obtain ⟨r, hflat, hcases⟩ := h.openFile_flat name access
      obtain rfl := Option.some.inj ((step_opens hflat).symm.trans hstep)
      rcases hcases with hsame | ⟨fd, inodeId, hi, hopen⟩
      · rw [hsame]
        exact ⟨newest, .of_kept (fun _ _ => rfl) h (.refl _ _ _ _)⟩
      · exact ⟨newest, .of_kept (fun _ _ => rfl) (h.opened hr hi hopen) (.refl _ _ _ _)⟩
    | read undef caller fd size =>
      cases hfd : v.globals.tables.fds caller fd with
      | none => simp [step, FsCall.prog, hfd] at hstep
      | some f =>
        obtain rfl := Option.some.inj ((step_read hfd).symm.trans hstep)
        exact h.read hr hfd (hok f hfd)
    | write undef caller fd buff =>
      cases hfd : v.globals.tables.fds caller fd with
      | none => simp [step, FsCall.prog, hfd] at hstep
      | some f =>
        obtain rfl := Option.some.inj ((step_write hfd).symm.trans hstep)
        exact h.write hr hfd (hok f hfd)
    | seek caller fd offset =>
      cases hfd : v.globals.tables.fds caller fd with
      | none => simp [step, FsCall.prog, hfd] at hstep
      | some f =>
        obtain rfl := Option.some.inj ((step_seek hfd).symm.trans hstep)
        exact ⟨newest, .of_kept (fun _ _ => rfl) (h.seek hfd offset) (.refl _ _ _ _)⟩
    | closes caller fd =>
      cases hfd : v.globals.tables.fds caller fd with
      | none => simp [step, FsCall.prog, hfd] at hstep
      | some f =>
        have hused := h.fds_inUse hfd
        have hfile := h.handles f hused
        have hclose := closeFile_eq hfd
        obtain rfl := Option.some.inj ((step_closes hfd hclose).symm.trans hstep)
        have hw := closed_inodeWrite hr (s := v.store) hfile.allocated.lt hfile.fits
        exact ⟨newest, .of_kept (fun _ _ => rfl) (h.close hr hfd (hok f hfd) hclose hw)
          (h.close_bytes hw (h.sameDirs_close hr ⟨hused, rfl⟩ hw) _)⟩

end Calls

end Steps

end Volume

end MipsOs.Fs
