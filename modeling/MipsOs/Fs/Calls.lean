import MipsOs.Fs.FileTables
import MipsOs.Lib.BlockProg
import MipsOs.Lib.CString

/-!
# The file-system calls

The calls of `fs/fs.c` as programs over the block cache: allocation, paths,
directories and open files.  A program is given the super block, which stays
in its own page while a partition is mounted, and `undef`, the value that an
uninitialised local variable of the source happens to hold.

A page is read and written as a whole.  What the source writes behind the
end of a page, of `file_name` or of a name is not modelled, and the arithmetic
of offsets is that of the natural numbers.
-/

namespace MipsOs.Fs

open MipsOs.Lib MipsOs.Lib.BlockProg

/-- A program over the block cache. -/
abbrev Prog (α : Type) : Type := BlockProg Block α

/-- A `uint32_t` as an `int`. -/
@[irreducible] def asInt (n : Nat) : Int := Int.bmod n (2 ^ 32)

/-- An `int` as a `uint32_t`. -/
def asUint (i : Int) : Nat := (i % 2 ^ 32).toNat

/-- `INODE_IN_BLOCK(i, sb)`; the division is in 64 bits. -/
def inodeInBlock (sb : SuperBlock) (inodeId : Int) : Nat :=
  ((inodeId % 2 ^ 64).toNat / inodesPerBlock + sb.inodeStart) % 2 ^ 32

/-- `inode_id % INODES_PER_BLOCK` -/
def inodeOffset (inodeId : Int) : Nat := (inodeId % 2 ^ 64).toNat % inodesPerBlock

/-- `inode_block[k]` -/
def inodeAt (b : Block) (k : Nat) : Inode where
  type := Bytes.word b (16 * k)
  nLinks := Bytes.word b (16 * k + 1)
  size := Bytes.word b (16 * k + 2)
  addrs a := Bytes.word b (16 * k + 3 + a)

/-- The words of an inode, in order. -/
def Inode.words (n : Inode) : List Nat := n.type :: n.nLinks :: n.size :: List.ofFn n.addrs

/-- `memcpy(inode_block + k, &inode, sizeof(inode_t))` -/
def putInode (b : Block) (k : Nat) (n : Inode) : Block :=
  n.words.zipIdx.foldl (fun b (v, a) => Bytes.setWord b (16 * k + a) v) b

/-! ## Directory blocks -/

/-- The string at byte `off` of a page. -/
def stringAt (b : Block) (off : Nat) : CString where
  bytes := ((List.range' off (blockSize - off)).map (Bytes.get b)).takeWhile (· ≠ 0)
  nonzero h := by simpa using List.mem_takeWhile_imp h

/-- `dir_block[i].name` -/
def entryName (dir : Block) (i : Nat) : CString := stringAt dir (64 * i)

/-- `dir_block[i].inode_id` -/
def entryInodeId (dir : Block) (i : Nat) : Nat := Bytes.word dir (16 * i + 15)

/-- `dir_block[i].name[0] == 0` -/
def entryEmpty (dir : Block) (i : Nat) : Bool := Bytes.get dir (64 * i) = 0

/-- What the search for a name in a directory block comes to. -/
inductive Lookup where
  | found (i : Nat)
  | missing
  | full
  deriving DecidableEq

/-- The loop of `do_find` over the entries `i, …` of a directory block. -/
def lookupFrom (dir : Block) (name : CString) : Nat → Nat → Lookup
  | 0, _ => .full
  | n + 1, i =>
    if entryEmpty dir i then .missing
    else if (entryName dir i).strcmp name = 0 then .found i
    else lookupFrom dir name n (i + 1)

/-- The search of `do_find` in one directory block. -/
def lookup (dir : Block) (name : CString) : Lookup := lookupFrom dir name dentryPerBlock 0

/-- The loop of `do_mkdir` and `do_touch` over the entries `i, …`: the value
of `dir_i` after it, or `none` when the name is there. -/
def slotFrom (dir : Block) (name : CString) : Nat → Nat → Option Nat
  | 0, i => some i
  | n + 1, i =>
    if (entryName dir i).strcmp name = 0 then none
    else if entryEmpty dir i then some i
    else slotFrom dir name n (i + 1)

/-- The search of `do_mkdir` and `do_touch` for a slot. -/
def freeSlot (dir : Block) (name : CString) : Option Nat := slotFrom dir name dentryPerBlock 0

/-- The names up to the first empty entry. -/
def entryNames (dir : Block) : List CString :=
  ((List.range dentryPerBlock).takeWhile fun i => !entryEmpty dir i).map (entryName dir)

/-! ## Allocation -/

/-- `alloc_inode`.  When all are taken, the answer is the uninitialised local `undef`. -/
def allocInode (sb : SuperBlock) (undef : Nat) : Prog Nat := do
  let inodeBitmap ← blockGet sb.inodeBitmapStart true
  let bitmap ← read inodeBitmap
  let inodeId := ((List.range bitsPerBlock).find? fun i => !bitmapCheck bitmap i).getD undef
  write inodeBitmap (bitmapSet bitmap inodeId)
  blockCommit inodeBitmap true
  return inodeId

/-- `free_inode` -/
def freeInode (sb : SuperBlock) (inodeId : Nat) : Prog Unit := do
  let inodeBitmap ← blockGet sb.inodeBitmapStart true
  write inodeBitmap (bitmapClear (← read inodeBitmap) inodeId)
  blockCommit inodeBitmap true

/-- Move on to the next block of the bitmap when block `i` is not in the
current one. -/
def nextBitmap (sb : SuperBlock) (i bitmapBlockId blockBitmap : Nat) : Prog (Nat × Nat) :=
  if i / bitsPerBlock + sb.blockBitmapStart ≠ bitmapBlockId then do
    blockCommit blockBitmap false
    let blockBitmap ← blockGet (bitmapBlockId + 1) true
    return (bitmapBlockId + 1, blockBitmap)
  else
    return (bitmapBlockId, blockBitmap)

/-- The loop of `alloc_data_block` from block `i` on.  The answer is the page
that is held at the end and the block that was found. -/
def allocFrom (sb : SuperBlock) : Nat → Nat → Nat → Nat → Prog (Nat × Option Nat)
  | 0, _, _, blockBitmap => return (blockBitmap, none)
  | n + 1, i, bitmapBlockId, blockBitmap => do
    let (bitmapBlockId, blockBitmap) ← nextBitmap sb i bitmapBlockId blockBitmap
    let bitmap ← read blockBitmap
    if bitmapCheck bitmap (i % bitsPerBlock) then
      allocFrom sb n (i + 1) bitmapBlockId blockBitmap
    else do
      write blockBitmap (bitmapSet bitmap (i % bitsPerBlock))
      return (blockBitmap, some i)

/-- `alloc_data_block`.  When all are taken, the answer is the uninitialised local
`undef`. -/
def allocDataBlock (sb : SuperBlock) (undef : Nat) : Prog Nat := do
  let page ← blockGet sb.blockBitmapStart true
  let (blockBitmap, found) ←
    allocFrom sb (sb.size - sb.dataStart) sb.dataStart sb.blockBitmapStart page
  blockCommit blockBitmap true
  return found.getD undef

/-- `free_data_block` -/
def freeDataBlock (sb : SuperBlock) (dataBlockId : Nat) : Prog Unit := do
  let blockBitmap ← blockGet (dataBlockId / bitsPerBlock + sb.blockBitmapStart) true
  write blockBitmap (bitmapClear (← read blockBitmap) (dataBlockId % bitsPerBlock))
  blockCommit blockBitmap true

/-! ## Paths -/

/-- The character `'/'`. -/
def slash : UInt8 := 47

/-- The local variables of the loop of `do_find` and of `do_find_dir` over a path. -/
structure Find where
  inodeId : Int
  error : Bool
  isEnd : Bool
  deriving DecidableEq

/-- The local variables of the loop of `do_cd` over a path, with the `dir_name` that it
has copied. -/
structure Walk extends Find where
  dirName : Option CString
  deriving DecidableEq

/-- Where a path starts, and what is left of it. -/
def pathStart (curDirInode : Int) (path : CString) : Find × List UInt8 :=
  if path.bytes.head? = some slash then
    ({ inodeId := 0, error := false, isEnd := false }, path.bytes.tail)
  else
    ({ inodeId := curDirInode, error := false, isEnd := false }, path.bytes)

/-- The start of `do_cd`, which has copied no name. -/
def walkStart (curDirInode : Int) (path : CString) : Walk × List UInt8 :=
  if path.bytes.head? = some slash then
    ({ inodeId := 0, error := false, isEnd := false, dirName := none }, path.bytes.tail)
  else
    ({ inodeId := curDirInode, error := false, isEnd := false, dirName := none }, path.bytes)

/-- The component at the front of a path. -/
def firstName (rest : List UInt8) : CString where
  bytes := (rest.takeWhile (· ≠ slash)).takeWhile (· ≠ 0)
  nonzero h := by simpa using List.mem_takeWhile_imp h

/-- The path behind the first `'/'`; `none` when there is none. -/
def afterSlash (rest : List UInt8) : Option (List UInt8) :=
  match rest.dropWhile (· ≠ slash) with
  | [] => none
  | _ :: rest => some rest

/-- The search of one directory block in `do_find` and `do_find_dir`. -/
def Find.search (w : Find) (dir : Block) (name : CString) : Find :=
  match lookup dir name with
  | .found i => { w with inodeId := asInt (entryInodeId dir i) }
  | .missing => { w with error := true }
  | .full => w

/-- The search of one directory block in `do_cd`. -/
def Walk.search (w : Walk) (dir : Block) (name : CString) : Walk :=
  match lookup dir name with
  | .found i =>
    { w with inodeId := asInt (entryInodeId dir i), dirName := some (entryName dir i) }
  | .missing => { w with error := true }
  | .full => w

/-- The loop of `do_find` over the components of a path.  The first argument bounds the
number of components. -/
def findFrom (sb : SuperBlock) : Nat → List UInt8 → Find → Prog Find
  | 0, _, w => return w
  | n + 1, rest, w =>
    if rest = [] then
      return w
    else do
      let name := firstName rest
      let w := { w with isEnd := afterSlash rest = none }
      let inodeBlock ← blockGet (inodeInBlock sb w.inodeId) true
      let inode := inodeAt (← read inodeBlock) (inodeOffset w.inodeId)
      if inode.type ≠ typeDir then
        return { w with error := true }
      else do
        let dirBlock ← blockGet (inode.addrs 0) true
        let dir ← read dirBlock
        let w := w.search dir name
        if w.error ∨ w.isEnd then
          return w
        else do
          blockCommit inodeBlock false
          blockCommit dirBlock false
          findFrom sb n ((afterSlash rest).getD []) w

/-- The loop of `do_find_dir`. -/
def findDirFrom (sb : SuperBlock) : Nat → List UInt8 → Find → Prog Find
  | 0, _, w => return w
  | n + 1, rest, w =>
    if rest = [] then
      return w
    else do
      let name := firstName rest
      let w := { w with isEnd := afterSlash rest = none }
      let inodeBlock ← blockGet (inodeInBlock sb w.inodeId) true
      let inode := inodeAt (← read inodeBlock) (inodeOffset w.inodeId)
      if inode.type ≠ typeDir then
        return { w with error := true }
      else do
        let dirBlock ← blockGet (inode.addrs 0) true
        let dir ← read dirBlock
        let w := w.search dir name
        if w.error ∨ w.isEnd then
          return w
        else do
          blockCommit inodeBlock false
          blockCommit dirBlock false
          findDirFrom sb n ((afterSlash rest).getD []) w

/-- The loop of `do_cd`. -/
def walkFrom (sb : SuperBlock) : Nat → List UInt8 → Walk → Prog Walk
  | 0, _, w => return w
  | n + 1, rest, w =>
    if rest = [] then
      return w
    else do
      let name := firstName rest
      let w := { w with isEnd := afterSlash rest = none }
      let inodeBlock ← blockGet (inodeInBlock sb w.inodeId) true
      let inode := inodeAt (← read inodeBlock) (inodeOffset w.inodeId)
      if inode.type ≠ typeDir then
        return { w with error := true }
      else do
        let dirBlock ← blockGet (inode.addrs 0) true
        let dir ← read dirBlock
        let w := w.search dir name
        if w.error ∨ w.isEnd then
          return w
        else do
          blockCommit inodeBlock false
          blockCommit dirBlock false
          walkFrom sb n ((afterSlash rest).getD []) w

/-- The inode that `do_find` answers, or -1. -/
def doFind (sb : SuperBlock) (curDirInode : Int) (path : CString) : Prog Nat := do
  let (w, rest) := pathStart curDirInode path
  let w ← findFrom sb rest.length rest w
  return if w.error then asUint (-1) else asUint w.inodeId

/-- What `do_find_dir` and `do_cd` do after the loop: whether the inode is no
directory, which is an error. -/
def checkDir (sb : SuperBlock) (inodeId : Int) : Prog Bool := do
  let inodeBlock ← blockGet (inodeInBlock sb inodeId) true
  let inode := inodeAt (← read inodeBlock) (inodeOffset inodeId)
  blockCommit inodeBlock false
  return inode.type ≠ typeDir

/-- The inode that `do_find_dir` answers, or -1. -/
def doFindDir (sb : SuperBlock) (curDirInode : Int) (path : CString) : Prog Nat := do
  let (w, rest) := pathStart curDirInode path
  let w ← findDirFrom sb rest.length rest w
  let noDir ← checkDir sb w.inodeId
  return if w.error || noDir then asUint (-1) else asUint w.inodeId

/-- The loop of `do_cd` from the start of the path. -/
def walk (sb : SuperBlock) (curDirInode : Int) (path : CString) : Prog Walk :=
  let (w, rest) := walkStart curDirInode path
  walkFrom sb rest.length rest w

/-- `cur_dir_name` and `cur_dir_inode`. -/
structure CurDir where
  name : CString
  inode : Int

/-- The name `"/"`. -/
def rootName : CString := ⟨[slash], by decide⟩

/-- The assignments at the end of `do_cd`.  Without a component the local
`dir_name` holds the string `undefName`. -/
def CurDir.change (cur : CurDir) (undefName : CString) (w : Walk) : CurDir :=
  if w.error then cur
  else if w.inodeId = 0 then { name := rootName, inode := 0 }
  else { name := w.dirName.getD undefName, inode := w.inodeId }

/-- `do_cd`: the current directory afterwards. -/
def doCd (sb : SuperBlock) (undefName : CString) (cur : CurDir) (path : CString) :
    Prog CurDir := do
  let w ← walk sb cur.inode path
  let noDir ← checkDir sb w.inodeId
  return cur.change undefName { w with error := w.error || noDir }

/-! ## Directories -/

/-- The names that `do_ls` prints. -/
def doLs (sb : SuperBlock) (inodeId : Nat) : Prog (List CString) := do
  let inodeBlock ← blockGet (inodeInBlock sb inodeId) true
  let inode := inodeAt (← read inodeBlock) (inodeOffset inodeId)
  let dirBlock ← blockGet (inode.addrs 0) true
  let dir ← read dirBlock
  blockCommit inodeBlock false
  blockCommit dirBlock false
  return entryNames dir

/-- The pages that `do_mkdir` and `do_touch` hold after the search of the
parent, and the entry that they are going to fill. -/
structure Slot where
  faInodeBlock : Nat
  faDirBlock : Nat
  dirI : Option Nat

/-- The search of the parent, with which `do_mkdir` and `do_touch` begin. -/
def searchSlot (sb : SuperBlock) (faInodeId : Nat) (name : CString) : Prog Slot := do
  let faInodeBlock ← blockGet (inodeInBlock sb faInodeId) true
  let faInode := inodeAt (← read faInodeBlock) (inodeOffset faInodeId)
  let faDirBlock ← blockGet (faInode.addrs 0) true
  let faDir ← read faDirBlock
  return { faInodeBlock := faInodeBlock, faDirBlock := faDirBlock, dirI := freeSlot faDir name }

/-- Allocate an inode and enter it into the parent, which is committed. -/
def addEntry (sb : SuperBlock) (undef : Nat) (faDirBlock dirI : Nat) (name : CString) :
    Prog Nat := do
  let inodeId ← allocInode sb undef
  write faDirBlock (setEntry (← read faDirBlock) dirI name.bytes inodeId)
  blockCommit faDirBlock true
  return inodeId

/-- The fields of a new inode but for its addresses. -/
def setInodeHead (b : Block) (k type size : Nat) : Block :=
  setInodeSize (setInodeNLinks (setInodeType b k type) k 1) k size

/-- The directory block of a new directory. -/
def newDir (inodeId faInodeId : Nat) : Block :=
  setEntry (setEntry zeroBlock 0 dotName inodeId) 1 dotDotName faInodeId

/-- `do_mkdir` after the search of the parent. -/
def makeDir (sb : SuperBlock) (undef : Nat) (faInodeId : Nat) (name : CString)
    (slot : Slot) (dirI : Nat) : Prog Unit := do
  let inodeId ← addEntry sb undef slot.faDirBlock dirI name
  blockCommit slot.faInodeBlock false
  let offset := inodeOffset inodeId
  let inodeBlock ← blockGet (inodeInBlock sb inodeId) true
  write inodeBlock (setInodeHead (← read inodeBlock) offset typeDir 1)
  let dataBlockId ← allocDataBlock sb undef
  write inodeBlock (setInodeAddr (← read inodeBlock) offset 0 dataBlockId)
  blockCommit inodeBlock true
  -- The source reads the address back through the page it has committed.
  let inode := inodeAt (← read inodeBlock) offset
  let dirBlock ← blockGet (inode.addrs 0) false
  write dirBlock (newDir inodeId faInodeId)
  blockCommit dirBlock true

/-- `do_mkdir` -/
def doMkdir (sb : SuperBlock) (undef : Nat) (faInodeId : Nat) (name : CString) :
    Prog Unit := do
  let slot ← searchSlot sb faInodeId name
  match slot.dirI with
  | none => return ()
  | some dirI => makeDir sb undef faInodeId name slot dirI

/-- `do_touch` after the search of the parent. -/
def makeFile (sb : SuperBlock) (undef : Nat) (name : CString) (slot : Slot) (dirI : Nat) :
    Prog Unit := do
  let inodeId ← addEntry sb undef slot.faDirBlock dirI name
  let offset := inodeOffset inodeId
  let inodeBlock ← blockGet (inodeInBlock sb inodeId) true
  write inodeBlock (setInodeHead (← read inodeBlock) offset typeFile 0)
  blockCommit inodeBlock true
  blockCommit slot.faInodeBlock false

/-- `do_touch` -/
def doTouch (sb : SuperBlock) (undef : Nat) (faInodeId : Nat) (name : CString) :
    Prog Unit := do
  let slot ← searchSlot sb faInodeId name
  match slot.dirI with
  | none => return ()
  | some dirI => makeFile sb undef name slot dirI

/-! ## Open files -/

section Files

variable {P : Type} [DecidableEq P]

/-- `open` after `do_find`. -/
def openFound (sb : SuperBlock) (t : FileTables P) (caller : P) (access found : Nat) :
    Prog (Int × FileTables P) :=
  let inodeId := asInt found
  if inodeId < 0 then
    return (-1, t)
  else do
    let inodeBlock ← blockGet (inodeInBlock sb inodeId) true
    let inode := inodeAt (← read inodeBlock) (inodeOffset inodeId)
    blockCommit inodeBlock false
    match t.openFile caller inodeId.toNat access inode with
    | none => return (-1, t)
    | some (fd, t) => return ((fd : Nat), t)

/-- `open`: the descriptor and the tables afterwards. -/
def openFile (sb : SuperBlock) (curDirInode : Int) (t : FileTables P) (caller : P)
    (name : CString) (access : Nat) : Prog (Int × FileTables P) :=
  if t.freeFile = none ∨ t.freeFd caller = none then
    return (-1, t)
  else do
    let found ← doFind sb curDirInode name
    openFound sb t caller access found

end Files

/-- `file->inode.size = MAX(file->inode.size, i_block + 1)` -/
def Inode.grow (n : Inode) (iBlock : Nat) : Inode := { n with size := max n.size (iBlock + 1) }

/-- `inode.addrs[a] = v` -/
def Inode.setAddr (n : Inode) (a : Fin 13) (v : Nat) : Inode :=
  { n with addrs := Function.update n.addrs a v }

/-- `memset(addrs, 0, sizeof(BLOCK_SIZE))`, which clears four bytes. -/
def clearFirst (b : Block) : Block := Bytes.setWord b 0 0

/-- The page of the block of addresses that slot `a` of the inode names.  A
block that was not there is allocated. -/
def addrBlock (sb : SuperBlock) (undef : Nat) (inode : Inode) (a : Fin 13) :
    Prog (Nat × Inode) :=
  if inode.addrs a ≠ 0 then do
    let page ← blockGet (inode.addrs a) true
    return (page, inode)
  else do
    let inode := inode.setAddr a (← allocDataBlock sb undef)
    let page ← blockGet (inode.addrs a) false
    write page (clearFirst (← read page))
    return (page, inode)

/-- Entry `k` of a block of addresses, allocated when it was not there, and
whether it was allocated. -/
def addrEntry (sb : SuperBlock) (undef : Nat) (page k : Nat) : Prog (Nat × Bool) := do
  let addrs ← read page
  if Bytes.word addrs k ≠ 0 then
    return (Bytes.word addrs k, false)
  else do
    let dataBlockId ← allocDataBlock sb undef
    write page (Bytes.setWord (← read page) k dataBlockId)
    return (dataBlockId, true)

/-- The page of the block of addresses that entry `k` of another one names,
and whether it was allocated. -/
def addrEntryBlock (sb : SuperBlock) (undef : Nat) (page k : Nat) : Prog (Nat × Bool) := do
  let addrs ← read page
  if Bytes.word addrs k ≠ 0 then do
    let doubleAddrs ← blockGet (Bytes.word addrs k) true
    return (doubleAddrs, false)
  else do
    let blockId ← allocDataBlock sb undef
    write page (Bytes.setWord (← read page) k blockId)
    let doubleAddrs ← blockGet (Bytes.word (← read page) k) false
    write doubleAddrs (clearFirst (← read doubleAddrs))
    return (doubleAddrs, true)

/-- The answer is the block and the inode copy of the open file. -/
def findDataBlock (sb : SuperBlock) (undef : Nat) (inode : Inode) (offset : Nat) :
    Prog (Nat × Inode) :=
  let iBlock := offset / blockSize
  let inode := inode.grow iBlock
  if h : iBlock < 10 then
    let a : Fin 13 := ⟨iBlock, by omega⟩
    if inode.addrs a = 0 then do
      let dataBlockId ← allocDataBlock sb undef
      return (dataBlockId, inode.setAddr a dataBlockId)
    else
      return (inode.addrs a, inode)
  else if iBlock < 10 + addrPerBlock then do
    let (indirectAddrs, inode) ← addrBlock sb undef inode 10
    let (dataBlockId, dirty) ← addrEntry sb undef indirectAddrs (iBlock - 10)
    blockCommit indirectAddrs dirty
    return (dataBlockId, inode)
  else if iBlock < 10 + addrPerBlock + addrPerBlock * addrPerBlock then do
    let i3Block := (iBlock - 10 - addrPerBlock) / addrPerBlock
    let i4Block := (iBlock - 10 - addrPerBlock) % addrPerBlock
    let (indirectAddrs, inode) ← addrBlock sb undef inode 11
    let (doubleAddrs, indirectDirty) ← addrEntryBlock sb undef indirectAddrs i3Block
    let (dataBlockId, doubleDirty) ← addrEntry sb undef doubleAddrs i4Block
    blockCommit indirectAddrs indirectDirty
    blockCommit doubleAddrs doubleDirty
    return (dataBlockId, inode)
  else
    return (asUint (-1), inode)

/-- The end of the piece of a transfer that starts at `fileOff`: the end of
the block or the end of the transfer. -/
def pieceEnd (offset size fileOff : Nat) : Nat :=
  min ((fileOff / blockSize + 1) * blockSize) (offset + size)

/-- The loop of `write`.  The first argument bounds the number of rounds. -/
def writeFrom (sb : SuperBlock) (undef : Nat) (buff : List UInt8) (offset : Nat) :
    Nat → Inode → Nat → Nat → Prog (Inode × Nat)
  | 0, inode, _, fileOff => return (inode, fileOff)
  | n + 1, inode, buffOff, fileOff =>
    if buffOff < buff.length then do
      let fileEnd := pieceEnd offset buff.length fileOff
      let copySize := fileEnd - fileOff
      let (dataBlockId, inode) ← findDataBlock sb undef inode fileOff
      let dataBlock ← blockGet dataBlockId (copySize ≠ blockSize)
      write dataBlock (Bytes.paste (← read dataBlock) (fileOff % blockSize)
        ((buff.drop buffOff).take copySize))
      blockCommit dataBlock true
      writeFrom sb undef buff offset n inode (buffOff + copySize) fileEnd
    else
      return (inode, fileOff)

/-- `write` of an open file: the open file afterwards. -/
def writeFile (sb : SuperBlock) (undef : Nat) (file : OpenFile) (buff : List UInt8) :
    Prog OpenFile := do
  let offset := file.offset.toNat
  let (inode, fileOff) ← writeFrom sb undef buff offset buff.length file.inode 0 offset
  return { file with inode := inode, offset := fileOff }

/-- The loop of `read`.  `out` is what it has copied so far. -/
def readFrom (sb : SuperBlock) (undef : Nat) (size offset : Nat) :
    Nat → Inode → List UInt8 → Nat → Prog (Inode × List UInt8 × Nat)
  | 0, inode, out, fileOff => return (inode, out, fileOff)
  | n + 1, inode, out, fileOff =>
    if out.length < size then do
      let fileEnd := pieceEnd offset size fileOff
      let copySize := fileEnd - fileOff
      let (dataBlockId, inode) ← findDataBlock sb undef inode fileOff
      let dataBlock ← blockGet dataBlockId true
      let data ← read dataBlock
      blockCommit dataBlock false
      readFrom sb undef size offset n inode
        (out ++ (List.range' (fileOff % blockSize) copySize).map (Bytes.get data)) fileEnd
    else
      return (inode, out, fileOff)

/-- `read` of an open file: the bytes and the open file afterwards. -/
def readFile (sb : SuperBlock) (undef : Nat) (file : OpenFile) (size : Nat) :
    Prog (List UInt8 × OpenFile) := do
  let offset := file.offset.toNat
  let (inode, out, fileOff) ← readFrom sb undef size offset size file.inode [] offset
  return (out, { file with inode := inode, offset := fileOff })

/-- `seek` -/
def OpenFile.seek (file : OpenFile) (offset : Int) : OpenFile := { file with offset := offset }

/-- What `close` does to the disk: the inode copy is written back. -/
def writeBack (sb : SuperBlock) (file : OpenFile) : Prog Unit := do
  let inodeBlock ← blockGet (inodeInBlock sb file.inodeId) true
  write inodeBlock (putInode (← read inodeBlock) (inodeOffset file.inodeId) file.inode)
  blockCommit inodeBlock true

end MipsOs.Fs
