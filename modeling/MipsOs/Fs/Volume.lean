import MipsOs.Fs.FileTransfers
import MipsOs.Fs.Pins

/-!
# A file system with open files

A `Volume` is the flat store of a partition next to the globals of `fs.c`.  Its steps
are the calls of `FsCall` and `do_rmdir`, by any process, in any order.

An inode has several copies: the one on the disk, and one in every open file.  Each
can have addresses that the others lack.  `Inv` says that there is one newest inode
behind the copies of each file, and that the places of the newest inodes are the used
data blocks, one to one.

`Sound` is what the callers have to see to.  The source checks none of it.
-/

namespace MipsOs.Fs

open MipsOs.Lib MipsOs.Lib.BlockProg TreeSystem

/-- The blocks of the partition, and the globals of `fs.c`. -/
structure Volume (P : Type) where
  store : BlockStore
  globals : FsGlobals P

/-- `unread` is what the blocks hold that are not read, and `undef` the values of
uninitialised locals. -/
inductive VolumeOp (P : Type) where
  | call (c : FsCall P) (unread : List (Option Block))
  | rmdir (undef : RmdirUndef) (inodeId : Nat) (unread : List (Option Block))

namespace Volume

variable {P : Type}

section Defs

variable (sb : SuperBlock) (v : Volume P)

/-- One call, over a flat store. -/
def step [DecidableEq P] (v : Volume P) : VolumeOp P → Option (Volume P)
  | .call c unread => (c.prog sb v.globals).map fun p =>
    { store := (p.flat unread v.store).2.2, globals := (p.flat unread v.store).1 }
  | .rmdir undef inodeId unread =>
    some { v with store := ((doRmdir sb undef inodeId).flat unread v.store).2.2 }

/-- The state after `init_file_system`, when no file has been opened.  `behind` is what
the memory behind the page of `files` holds. -/
def start (old : BlockStore) (unread : List (Option Block))
    (behind : Fin globalMaxFiles → OpenFile) : Volume P where
  store := ((initBlocks sb).flat unread old).2.2
  globals := { cur := { name := rootName, inode := 0 }, tables := FileTables.init behind }

/-- The store and the current directory. -/
def treeState : TreeState := { store := v.store, cur := v.globals.cur }

/-- The entry `f` of `files`. -/
abbrev file (f : Fin globalMaxFiles) : OpenFile := v.globals.tables.files f

/-- The entry `f` is an open file with the inode. -/
def Handle (f : Fin globalMaxFiles) (inodeId : Nat) : Prop :=
  (v.file f).inUse = true ∧ (v.file f).inodeId = inodeId

/-- The copies of an inode. -/
inductive Copy (inodeId : Nat) : Inode → Prop where
  | disk : Copy inodeId (inodeOf sb v.store inodeId)
  | handle {f : Fin globalMaxFiles} (h : v.Handle f inodeId) : Copy inodeId (v.file f).inode

/-- `n` names the block `b` for the part. -/
structure Owner (o : Place) (b : Nat) : Prop where
  allocated : Allocated sb v.store o.inodeId
  ok : o.part.Ok
  ne_zero : b ≠ 0
  named : ∃ n, v.Copy sb o.inodeId n ∧ o.part.addr v.store n = b

end Defs

/-! ## What the callers see to -/

section Sound

variable (sb : SuperBlock) (v : Volume P)

/-- The inode that `alloc_inode` takes names no block, but in the slot that `do_mkdir`
overwrites.  `alloc_inode` clears nothing. -/
def BlankNext (needsBlock : Bool) : Prop :=
  ∀ i, FirstFree sb v.store i → ∀ a, a ≠ 0 ∨ needsBlock = false →
    (inodeOf sb v.store i).addrs a = 0

/-- The copy has the slot, or no copy has it. -/
def Knows (file : OpenFile) (a : Fin 13) : Prop :=
  file.inode.addrs a ≠ 0 ∨ ∀ n, v.Copy sb file.inodeId n → n.addrs a = 0

/-- A transfer of `size` bytes through an open file.  The file is no directory, the range
is one of an `int`, the copy of the inode knows the blocks of the range, and the blocks
that are missing can be allocated. -/
structure CanTransfer (piece : Inode → Nat → Prog (Inode × List UInt8)) (file : OpenFile)
    (size : Nat) (unread : List (Option Block)) : Prop where
  notDir : ¬ IsDir sb v.store file.inodeId
  nonneg : 0 ≤ file.offset
  inside : file.offset.toNat + size + blockSize ≤ 2 ^ 31
  knows : ∀ k < size, v.Knows sb file (dataPart ((file.offset.toNat + k) / blockSize)).root
  room : RoundsOk sb piece file.offset.toNat size size file.inode 0 unread v.store

/-- A slot of the disk is in the copy that `close` writes there, or in another one. -/
def WritesBackAll (f : Fin globalMaxFiles) : Prop :=
  ∀ a, (inodeOf sb v.store (v.file f).inodeId).addrs a ≠ 0 → (v.file f).inode.addrs a ≠ 0 ∨
    ∃ g ≠ f, v.Handle g (v.file f).inodeId ∧ (v.file g).inode.addrs a ≠ 0

/-- The directory is empty, neither open nor the current one, its entry is the last one
of the parent, and the block that `do_rmdir` frees is its own. -/
structure CanRemove (inodeId : Nat) : Prop where
  removable : Removable sb v.store inodeId
  last : LastEntry sb v.store inodeId
  own : freedBlock sb v.store inodeId = dirBlockOf sb v.store inodeId
  notOpen : ∀ f, ¬ v.Handle f inodeId
  notCurrent : v.globals.cur.inode ≠ inodeId

/-- The calls that keep the accounts.  Paths fit into `file_name`, and `open` takes no
entry whose inode lies in the page of the super block. -/
def SoundCall [DecidableEq P] (unread : List (Option Block)) : FsCall P → Prop
  | .ls _ => True
  | .find path => path.strlen < 100
  | .findDir path => path.strlen < 100
  | .cd _ path => path.strlen < 100
  | .mkdir _ fa name => CanCreate sb v.store fa name true ∧ v.BlankNext sb true
  | .touch _ fa name => CanCreate sb v.store fa name false ∧ v.BlankNext sb false
  | .read undef caller fd size => ∀ f, v.globals.tables.fds caller fd = some f →
    v.CanTransfer sb (readPiece sb undef (v.file f).offset.toNat size) (v.file f) size unread
  | .write undef caller fd buff => ∀ f, v.globals.tables.fds caller fd = some f →
    v.CanTransfer sb (writePiece sb undef buff (v.file f).offset.toNat) (v.file f) buff.length
      unread
  | .opens caller name _ => name.strlen < 100 ∧ v.globals.tables.OpensInPage caller
  | .seek _ _ _ => True
  | .closes caller fd => ∀ f, v.globals.tables.fds caller fd = some f → v.WritesBackAll sb f

/-- The calls that keep the accounts, with the removal of an empty directory. -/
def Sound [DecidableEq P] (v : Volume P) : VolumeOp P → Prop
  | .call c unread => v.SoundCall sb unread c
  | .rmdir _ inodeId _ => v.CanRemove sb inodeId

end Sound

/-! ## The invariant -/

/-- An open file has a copy of an allocated inode, which writes back as it is. -/
structure HandleOk (sb : SuperBlock) (s : BlockStore) (file : OpenFile) : Prop where
  allocated : Allocated sb s file.inodeId
  type_eq : file.inode.type = (inodeOf sb s file.inodeId).type
  fits : file.inode.Fits
  dir : IsDir sb s file.inodeId → file.inode.addrs 0 ≠ 0

/-- The tree, the open files and the accounts: `newest` has the addresses of all
copies, and its places are the used data blocks. -/
structure Inv (sb : SuperBlock) (v : Volume P) (newest : Nat → Inode) : Prop where
  tree : TreeSystem.Inv sb v.treeState
  matched : v.globals.tables.Matched
  reconciled : Reconciled sb v.store newest
  handles : ∀ f, (v.file f).inUse = true → HandleOk sb v.store (v.file f)
  old : ∀ i n, Allocated sb v.store i → v.Copy sb i n → KeepsSlots n (newest i)
  covered : ∀ i a, Allocated sb v.store i → (newest i).addrs a ≠ 0 →
    ∃ n, v.Copy sb i n ∧ n.addrs a ≠ 0
  single : ∀ d a, Directory sb v.store d → a ≠ 0 → (newest d).addrs a = 0

section Inv

variable {sb : SuperBlock} {v : Volume P} {newest : Nat → Inode} {i d : Nat} {n : Inode}
  {a : Fin 13} {f : Fin globalMaxFiles} {o : Place} {b : Nat}

theorem Inv.handle_allocated (h : Inv sb v newest) (hf : v.Handle f i) :
    Allocated sb v.store i := hf.2 ▸ (h.handles f hf.1).allocated

/-- The disk and the open files as one. -/
theorem copy_iff : v.Copy sb i n ↔
    n = inodeOf sb v.store i ∨ ∃ f, v.Handle f i ∧ n = (v.file f).inode := by
  constructor
  · intro hn
    cases hn with
    | disk => exact .inl rfl
    | handle hf => exact .inr ⟨_, hf, rfl⟩
  · rintro (rfl | ⟨f, hf, rfl⟩)
    · exact .disk
    · exact .handle hf

/-- The open files and the disk agree on the block of a directory. -/
theorem Inv.namesBlock (h : Inv sb v newest) (hr : Regions sb)
    (hd : Directory sb v.store d) : NamesBlock sb v.store newest d := by
  have hpos := hr.dataStart_pos
  have hle := h.tree.own.le d hd
  have hne : (inodeOf sb v.store d).addrs 0 ≠ 0 := by
    simp only [treeState] at hle
    omega
  exact ⟨hd, h.old d _ hd.toAllocated .disk 0 hne, hne⟩

/-- A slot that the copy knows. -/
theorem Inv.slotKnown (h : Inv sb v newest) {file : OpenFile}
    (hi : Allocated sb v.store file.inodeId) (hknows : v.Knows sb file a) :
    SlotKnown file.inode (newest file.inodeId) a := by
  rcases hknows with hne | hzero
  · exact .inl hne
  · refine .inr (not_not.mp fun hne => ?_)
    obtain ⟨n, hn, hna⟩ := h.covered _ a hi hne
    exact hna (hzero n hn)

/-- The part hangs from its slot. -/
theorem root_ne_zero {s : BlockStore} {p : Part} (h : p.addr s n ≠ 0) : n.addrs p.root ≠ 0 := by
  induction p with
  | slot a => exact h
  | entry p k ih =>
    refine ih fun hzero => h ?_
    rw [Part.addr, if_pos hzero]

/-- Inodes with the same slot have the same parts behind it. -/
theorem addr_congr_root {s : BlockStore} {p : Part} {m : Inode}
    (h : m.addrs p.root = n.addrs p.root) : p.addr s m = p.addr s n := by
  induction p with
  | slot a => exact h
  | entry p k ih => rw [Part.addr, Part.addr, ih h]

/-- The owners are the places of the newest inodes. -/
theorem Inv.owner_iff (h : Inv sb v newest) :
    v.Owner sb o b ↔ o ∈ references sb v.store newest ∧ o.block v.store newest = b := by
  constructor
  · intro ⟨ho, hp, hne, n, hn, haddr⟩
    subst haddr
    have heq := (h.old _ n ho hn).addr hne
    exact ⟨⟨ho, hp, heq.trans_ne hne⟩, heq⟩
  · intro ⟨⟨ho, hp, hne⟩, heq⟩
    subst heq
    obtain ⟨n, hn, hna⟩ := h.covered _ _ ho (root_ne_zero hne)
    exact ⟨ho, hp, hne, n, hn, (addr_congr_root (h.old _ n ho hn _ hna)).symm⟩

/-- Every used data block has one owner, every owner has a used data block, and a place
has one block. -/
structure Accounted (sb : SuperBlock) (v : Volume P) : Prop where
  used_iff : ∀ b, TakenData sb v.store b ↔ ∃ o, v.Owner sb o b
  owner_eq : ∀ o o' b, v.Owner sb o b → v.Owner sb o' b → o = o'
  block_eq : ∀ o b b', v.Owner sb o b → v.Owner sb o b' → b = b'

theorem Inv.accounted (h : Inv sb v newest) : v.Accounted sb where
  used_iff b := by
    constructor
    · intro hb
      obtain ⟨o, ho, hblock⟩ := h.reconciled.surjOn hb
      exact ⟨o, h.owner_iff.mpr ⟨ho, hblock⟩⟩
    · intro ⟨o, ho⟩
      obtain ⟨hplace, hblock⟩ := h.owner_iff.mp ho
      exact hblock ▸ h.reconciled.mapsTo hplace
  owner_eq o o' b ho ho' := by
    obtain ⟨hplace, hblock⟩ := h.owner_iff.mp ho
    obtain ⟨hplace', hblock'⟩ := h.owner_iff.mp ho'
    exact h.reconciled.injOn hplace hplace' (hblock.trans hblock'.symm)
  block_eq o b b' ho ho' := by
    rw [← (h.owner_iff.mp ho).2, ← (h.owner_iff.mp ho').2]

end Inv

end Volume

end MipsOs.Fs
