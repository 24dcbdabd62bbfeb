import MipsOs.Fs.PathWalk
import MipsOs.Lib.Extent

/-!
# The loops of `write` and `read`

The two loops of `fs/fs.c` with the lookup of a block as a parameter, in the
arithmetic of the machine: offsets are `int`, the size and the comparisons are
`uint32_t`.

While `offset + size + BLOCK_SIZE` is at most `2 ^ 31` nothing wraps around, and
a round of a loop moves the piece up to the end of the block or of the transfer
(`writeLoop_succ`, `readLoop_succ`).  With the lookup of the source the calls are
`writeFile` and `readFile` (`writeWith_source`, `readWith_source`).

`write_then_read` is the result, for every lookup that is a fixed one-to-one map.
-/

namespace MipsOs.Fs

open MipsOs.Lib MipsOs.Lib.BlockProg

/-- An `int` result, which wraps around. -/
def toInt (i : Int) : Int := asInt (asUint i)

/-- `file_end`: the end of the block of `fileOff`, or the end of the transfer. -/
def fileEnd (offset : Int) (size : Nat) (fileOff : Int) : Int :=
  let blockEnd := toInt ((fileOff.tdiv blockSize + 1) * blockSize)
  let last := (asUint offset + size) % 2 ^ 32
  if last < asUint blockEnd then asInt last else blockEnd

/-- `copy_size` -/
def copySize (offset : Int) (size : Nat) (fileOff : Int) : Int :=
  toInt (fileEnd offset size fileOff - fileOff)

section Loops

-- The lookup of the block at an offset, with the inode copy of the open file.
variable (find : Inode → Int → Prog (Nat × Inode))

/-- The loop of `write`; `none` when `fuel` rounds do not suffice. -/
def writeLoop (offset : Int) (buff : List UInt8) :
    Nat → Inode → Int → Int → Prog (Option (Inode × Int))
  | 0, _, _, _ => return none
  | fuel + 1, inode, buffOff, fileOff =>
    if asUint buffOff < buff.length then do
      let copySize := copySize offset buff.length fileOff
      let (dataBlockId, inode) ← find inode fileOff
      let dataBlock ← blockGet dataBlockId (copySize ≠ blockSize)
      write dataBlock (Bytes.paste (← read dataBlock) (fileOff.tmod blockSize).toNat
        ((buff.drop buffOff.toNat).take (asUint copySize)))
      blockCommit dataBlock true
      writeLoop offset buff fuel inode (toInt (buffOff + copySize))
        (fileEnd offset buff.length fileOff)
    else
      return some (inode, fileOff)

/-- The loop of `read`.  `out` is what it has copied so far. -/
def readLoop (offset : Int) (size : Nat) :
    Nat → Inode → List UInt8 → Int → Int → Prog (Option (Inode × List UInt8 × Int))
  | 0, _, _, _, _ => return none
  | fuel + 1, inode, out, buffOff, fileOff =>
    if asUint buffOff < size then do
      let copySize := copySize offset size fileOff
      let (dataBlockId, inode) ← find inode fileOff
      let dataBlock ← blockGet dataBlockId true
      let data ← read dataBlock
      blockCommit dataBlock false
      readLoop offset size fuel inode
        (out ++ (List.range' (fileOff.tmod blockSize).toNat (asUint copySize)).map
          (Bytes.get data))
        (toInt (buffOff + copySize)) (fileEnd offset size fileOff)
    else
      return some (inode, out, fileOff)

/-- `write` of an open file. -/
def writeWith (fuel : Nat) (file : OpenFile) (buff : List UInt8) : Prog (Option OpenFile) := do
  let r ← writeLoop find file.offset buff fuel file.inode 0 file.offset
  return r.map fun (inode, fileOff) => { file with inode := inode, offset := fileOff }

/-- `read` of an open file. -/
def readWith (fuel : Nat) (file : OpenFile) (size : Nat) :
    Prog (Option (List UInt8 × OpenFile)) := do
  let r ← readLoop find file.offset size fuel file.inode [] 0 file.offset
  return r.map fun (inode, out, fileOff) =>
    (out, { file with inode := inode, offset := fileOff })

end Loops

section Calls

variable {find : Inode → Int → Prog (Nat × Inode)} {fuel : Nat} {unread : List (Option Block)}
  {s t : BlockStore} {inode : Inode} {fileOff : Int} (file : OpenFile)

/-- `write` of an open file is what its loop comes to. -/
theorem writeWith_flat {buff : List UInt8} {rest : List (Option Block)}
    (h : (writeLoop find file.offset buff fuel file.inode 0 file.offset).flat unread s =
      (some (inode, fileOff), rest, t)) :
    (writeWith find fuel file buff).flat unread s =
      (some { file with inode := inode, offset := fileOff }, rest, t) := by
  unfold writeWith
  rw [flat_bind, h]
  rfl

theorem readWith_flat {size : Nat} {out : List UInt8} {rest : List (Option Block)}
    (h : (readLoop find file.offset size fuel file.inode [] 0 file.offset).flat unread s =
      (some (inode, out, fileOff), rest, t)) :
    (readWith find fuel file size).flat unread s =
      (some (out, { file with inode := inode, offset := fileOff }), rest, t) := by
  unfold readWith
  rw [flat_bind, h]
  rfl

end Calls

/-! ## A round, without overflow -/

section Rounds

variable {o n k : Nat}

/-- The number of bytes that the round at byte `k` of a transfer moves. -/
def pieceSize (o n k : Nat) : Nat := pieceEnd o n (o + k) - (o + k)

theorem pieceEnd_eq (hk : k < n) : pieceEnd o n (o + k) = o + (k + pieceSize o n k) := by
  unfold pieceSize pieceEnd
  simp only [blockSize]
  omega

theorem pieceSize_pos (hk : k < n) : 0 < pieceSize o n k := by
  unfold pieceSize pieceEnd
  simp only [blockSize]
  omega

theorem pieceSize_le (hk : k < n) : k + pieceSize o n k ≤ n := by
  unfold pieceSize pieceEnd
  simp only [blockSize]
  omega

/-- A piece stays inside of its block. -/
theorem pieceSize_fits : (o + k) % blockSize + pieceSize o n k ≤ blockSize := by
  unfold pieceSize pieceEnd
  simp only [blockSize]
  omega

theorem asUint_natCast {i : Nat} (h : i < 2 ^ 32) : asUint i = i := by
  unfold asUint
  omega

theorem toInt_natCast {i : Nat} (h : i < 2 ^ 31) : toInt i = i := by
  rw [toInt, asUint_natCast (by omega), asInt_of_lt h]

theorem asUint_toInt {i : Nat} (h : i < 2 ^ 32) : asUint (toInt i) = i := by
  rw [toInt, asUint_natCast h]
  unfold asInt
  show (Int.bmod i (2 ^ 32) % ((2 ^ 32 : Nat) : Int)).toNat = i
  rw [Int.bmod_emod]
  omega

/-- The end of the last block of an `int` may be 2^31, which wraps around to a negative
number; the end of the transfer is below it, also as a `uint32_t`. -/
theorem fileEnd_natCast (hk : k < n) (h : o + n < 2 ^ 31) :
    fileEnd o n (o + k : Nat) = (o + (k + pieceSize o n k) : Nat) := by
  have hle : ((o + k) / blockSize + 1) * blockSize ≤ 2 ^ 31 := by
    simp only [blockSize]
    omega
  have hround : ((((o + k : Nat) : Int).tdiv blockSize + 1) * blockSize : Int) =
      (((o + k) / blockSize + 1) * blockSize : Nat) := by
    rw [← Int.ofNat_tdiv]
    push_cast
    rfl
  have hlast : (asUint o + n) % 2 ^ 32 = o + n := by
    rw [asUint_natCast (by omega)]
    omega
  rw [← pieceEnd_eq hk, fileEnd, pieceEnd]
  rw [hround, hlast, asUint_toInt (by omega)]
  split_ifs with hlt
  · rw [asInt_of_lt h, min_eq_right (by omega)]
  · rw [toInt_natCast (by omega), min_eq_left (by omega)]

theorem copySize_natCast (hk : k < n) (h : o + n < 2 ^ 31) :
    copySize o n (o + k : Nat) = pieceSize o n k := by
  have hle := pieceSize_le (o := o) hk
  rw [copySize, fileEnd_natCast hk h,
    show ((o + (k + pieceSize o n k) : Nat) : Int) - (o + k : Nat) = (pieceSize o n k : Nat) by
      omega]
  exact toInt_natCast (by omega)

theorem round_lt (hk : k < n) (h : o + n < 2 ^ 31) :
    k + pieceSize o n k < 2 ^ 31 := by
  have hle := pieceSize_le (o := o) hk
  omega

variable {find : Inode → Int → Prog (Nat × Inode)} {buff : List UInt8} {inode : Inode}
  {out : List UInt8} {fuel : Nat}

theorem tmod_natCast (i : Nat) : ((i : Int).tmod blockSize).toNat = i % blockSize := by
  rw [← Int.ofNat_tmod]
  rfl

/-- A round of `write`. -/
theorem writeLoop_succ (hk : k < buff.length) (h : o + buff.length < 2 ^ 31) :
    writeLoop find o buff (fuel + 1) inode k (o + k : Nat) = (do
      let (dataBlockId, inode) ← find inode (o + k : Nat)
      let dataBlock ← blockGet dataBlockId (pieceSize o buff.length k ≠ blockSize)
      write dataBlock (Bytes.paste (← read dataBlock) ((o + k) % blockSize)
        ((buff.drop k).take (pieceSize o buff.length k)))
      blockCommit dataBlock true
      writeLoop find o buff fuel inode (k + pieceSize o buff.length k : Nat)
        (o + (k + pieceSize o buff.length k) : Nat)) := by
  have hlt := round_lt hk h
  have hcopy : asUint (pieceSize o buff.length k) = pieceSize o buff.length k :=
    asUint_natCast (by omega)
  have hnext : toInt ((k : Int) + pieceSize o buff.length k) =
      (k + pieceSize o buff.length k : Nat) := by
    rw [← Nat.cast_add]
    exact toInt_natCast hlt
  rw [writeLoop, asUint_natCast (by omega), if_pos hk, copySize_natCast hk h,
    fileEnd_natCast hk h, tmod_natCast]
  dsimp only
  rw [hcopy, hnext, Int.toNat_natCast]
  simp only [ne_eq, Nat.cast_inj]

/-- A round of `read`. -/
theorem readLoop_succ {n : Nat} (hk : k < n) (h : o + n < 2 ^ 31) :
    readLoop find o n (fuel + 1) inode out k (o + k : Nat) = (do
      let (dataBlockId, inode) ← find inode (o + k : Nat)
      let dataBlock ← blockGet dataBlockId true
      let data ← read dataBlock
      blockCommit dataBlock false
      readLoop find o n fuel inode
        (out ++ (List.range' ((o + k) % blockSize) (pieceSize o n k)).map (Bytes.get data))
        (k + pieceSize o n k : Nat) (o + (k + pieceSize o n k) : Nat)) := by
  have hlt := round_lt hk h
  have hcopy : asUint (pieceSize o n k) = pieceSize o n k := asUint_natCast (by omega)
  have hnext : toInt ((k : Int) + pieceSize o n k) = (k + pieceSize o n k : Nat) := by
    rw [← Nat.cast_add]
    exact toInt_natCast hlt
  rw [readLoop, asUint_natCast (by omega), if_pos hk, copySize_natCast hk h,
    fileEnd_natCast hk h, tmod_natCast]
  dsimp only
  rw [hcopy, hnext]

/-- Behind the last round the loops stop. -/
theorem writeLoop_done (h : o + buff.length < 2 ^ 31) {fileOff : Int} :
    writeLoop find o buff (fuel + 1) inode buff.length fileOff =
      (return some (inode, fileOff)) := by
  rw [writeLoop, asUint_natCast (by omega), if_neg (Nat.lt_irrefl _)]

theorem readLoop_done {n : Nat} (h : o + n < 2 ^ 31) {fileOff : Int} :
    readLoop find o n (fuel + 1) inode out n fileOff =
      (return some (inode, out, fileOff)) := by
  rw [readLoop, asUint_natCast (by omega), if_neg (Nat.lt_irrefl _)]

end Rounds

/-! ## The lookup of the source -/

section Source

variable (sb : SuperBlock) (undef : Nat)

/-- The lookup of the source. -/
def sourceLookup (inode : Inode) (offset : Int) : Prog (Nat × Inode) :=
  findDataBlock sb undef inode offset.toNat

variable (s : BlockStore) {o : Nat} {buff : List UInt8}

/-- The loop of `write`, in the arithmetic of the natural numbers. -/
theorem writeLoop_source (h : o + buff.length < 2 ^ 31) {fuel n k : Nat}
    (hk : k ≤ buff.length) (hfuel : buff.length - k < fuel) (hn : buff.length - k ≤ n)
    (inode : Inode) (unread : List (Option Block)) :
    (writeLoop (sourceLookup sb undef) o buff fuel inode k (o + k : Nat)).flat unread s =
      ((writeFrom sb undef buff o n inode k (o + k)).flat unread s).map
        (fun r => some (r.1, (r.2 : Int))) id := by
  induction fuel generalizing n k inode unread s with
  | zero => omega
  | succ fuel ih =>
    rcases Nat.lt_or_ge k buff.length with hlt | hge
    · have hle := pieceSize_le (o := o) hlt
      have hpos := pieceSize_pos (o := o) hlt
      obtain ⟨n, rfl⟩ : ∃ m, n = m + 1 := ⟨n - 1, by omega⟩
      have hend := pieceEnd_eq (o := o) hlt
      rw [writeLoop_succ hlt h, writeFrom, if_pos hlt, ← hend]
      apply flat_bind_map
      intro found unread s
      apply flat_bind_map
      intro dataBlock unread s
      apply flat_bind_map
      intro data unread s
      apply flat_bind_map
      intro _ unread s
      apply flat_bind_map
      intro _ unread s
      have hnext := ih s hle (by omega) (show buff.length - _ ≤ n by omega) found.2 unread
      rw [← hend] at hnext
      exact hnext
    · obtain rfl : k = buff.length := le_antisymm hk hge
      rw [writeLoop_done h]
      cases n with
      | zero => rfl
      | succ n =>
        rw [writeFrom, if_neg (Nat.lt_irrefl _)]
        rfl

/-- The loop of `read`, in the arithmetic of the natural numbers. -/
theorem readLoop_source {size : Nat} (h : o + size < 2 ^ 31) {fuel n k : Nat}
    {out : List UInt8} (hout : out.length = k) (hk : k ≤ size) (hfuel : size - k < fuel)
    (hn : size - k ≤ n) (inode : Inode) (unread : List (Option Block)) :
    (readLoop (sourceLookup sb undef) o size fuel inode out k (o + k : Nat)).flat unread s =
      ((readFrom sb undef size o n inode out (o + k)).flat unread s).map
        (fun r => some (r.1, r.2.1, (r.2.2 : Int))) id := by
  induction fuel generalizing n k out inode unread s with
  | zero => omega
  | succ fuel ih =>
    rcases Nat.lt_or_ge k size with hlt | hge
    · have hle := pieceSize_le (o := o) hlt
      have hpos := pieceSize_pos (o := o) hlt
      obtain ⟨n, rfl⟩ : ∃ m, n = m + 1 := ⟨n - 1, by omega⟩
      have hend := pieceEnd_eq (o := o) hlt
      rw [readLoop_succ hlt h, readFrom, if_pos (hout ▸ hlt), ← hend]
      apply flat_bind_map
      intro found unread s
      apply flat_bind_map
      intro dataBlock unread s
      apply flat_bind_map
      intro data unread s
      apply flat_bind_map
      intro _ unread s
      have hlen : (out ++ (List.range' ((o + k) % blockSize) (pieceSize o size k)).map
          (Bytes.get data)).length = k + pieceSize o size k := by
        rw [List.length_append, List.length_map, List.length_range', hout]
      have hnext := ih s hlen hle (by omega) (show size - _ ≤ n by omega) found.2 unread
      rw [← hend] at hnext
      exact hnext
    · obtain rfl : k = size := le_antisymm hk hge
      rw [readLoop_done h]
      cases n with
      | zero => rfl
      | succ n =>
        rw [readFrom, if_neg (hout ▸ Nat.lt_irrefl _)]
        rfl

/-- `write` with the lookup of the source is `writeFile`. -/
theorem writeWith_source (file : OpenFile) (h : o + buff.length < 2 ^ 31)
    {fuel : Nat} (hfuel : buff.length < fuel) (unread : List (Option Block)) :
    (writeWith (sourceLookup sb undef) fuel (file.seek o) buff).flat unread s =
      ((writeFile sb undef (file.seek o) buff).flat unread s).map some id := by
  have hloop := writeLoop_source sb undef s h (Nat.zero_le _) hfuel (le_refl _) file.inode unread
  rw [writeWith_flat (file.seek o) hloop]
  unfold writeFile
  rw [flat_bind]
  rfl

/-- `read` with the lookup of the source is `readFile`. -/
theorem readWith_source {size : Nat} (file : OpenFile) (h : o + size < 2 ^ 31)
    {fuel : Nat} (hfuel : size < fuel) (unread : List (Option Block)) :
    (readWith (sourceLookup sb undef) fuel (file.seek o) size).flat unread s =
      ((readFile sb undef (file.seek o) size).flat unread s).map some id := by
  have hloop := readLoop_source sb undef s h List.length_nil (Nat.zero_le _) hfuel (le_refl _)
    file.inode unread
  rw [readWith_flat (file.seek o) hloop]
  unfold readFile
  rw [flat_bind]
  rfl

end Source

/-! ## A fixed map -/

/-- A lookup that is a fixed map from file blocks to blocks. -/
def blockOf (map : Nat → Nat) (inode : Inode) (offset : Int) : Prog (Nat × Inode) :=
  return (map (offset.tdiv blockSize).toNat, inode)

section Fixed

variable {map : Nat → Nat} {s : BlockStore} {o : Nat} {inode : Inode} {buff : List UInt8}

theorem blockOf_natCast (i : Nat) :
    blockOf map inode i = return (map (i / blockSize), inode) := by
  rw [blockOf, ← Int.ofNat_tdiv]
  rfl

/-- The piece of a round, in a page that has been read or that it fills. -/
theorem wrote_round {k : Nat} (hk : k < buff.length) {page : Block}
    (hpage : page = s (map ((o + k) / blockSize)) ∨ pieceSize o buff.length k = blockSize) :
    Wrote map s (Function.update s (map ((o + k) / blockSize)) (Bytes.paste page
      ((o + k) % blockSize) ((buff.drop k).take (pieceSize o buff.length k)))) (o + k)
      ((buff.drop k).take (pieceSize o buff.length k)) := by
  have hle := pieceSize_le (o := o) hk
  have hlen : ((buff.drop k).take (pieceSize o buff.length k)).length =
      pieceSize o buff.length k := by
    rw [List.length_take, List.length_drop]
    omega
  apply wrote_piece
  · rw [hlen]
    exact pieceSize_fits
  · rw [hlen]
    exact hpage

/-- `write` puts the rest of the buffer into the file. -/
theorem writeLoop_sat (s : BlockStore) (inode : Inode) (hmap : OwnBlock map (2 ^ 19))
    (h : o + buff.length < 2 ^ 31)
    {fuel k : Nat} (hk : k ≤ buff.length) (hfuel : buff.length - k < fuel) :
    (writeLoop (blockOf map) o buff fuel inode k (o + k : Nat)).Sat s fun r t =>
      r = some (inode, ((o + buff.length : Nat) : Int)) ∧ Wrote map s t (o + k) (buff.drop k) := by
  have hmax : o + buff.length ≤ 2 ^ 19 * 4096 := by omega
  induction fuel generalizing k s with
  | zero => omega
  | succ fuel ih =>
    rcases Nat.lt_or_ge k buff.length with hlt | hge
    · have hle := pieceSize_le (o := o) hlt
      have hpos := pieceSize_pos (o := o) hlt
      have hround : ∀ page : Block,
          page = s (map ((o + k) / blockSize)) ∨ pieceSize o buff.length k = blockSize →
          (writeLoop (blockOf map) o buff fuel inode (k + pieceSize o buff.length k : Nat)
            (o + (k + pieceSize o buff.length k) : Nat)).Sat
            (Function.update s (map ((o + k) / blockSize)) (Bytes.paste page
              ((o + k) % blockSize) ((buff.drop k).take (pieceSize o buff.length k))))
            fun r t => r = some (inode, ((o + buff.length : Nat) : Int)) ∧
              Wrote map s t (o + k) (buff.drop k) := by
        intro page hpage
        apply (ih _ hle (by omega)).mono
        rintro r t ⟨rfl, hrest⟩
        exact ⟨rfl, (wrote_round hlt hpage).drop hmap hle hrest hmax⟩
      rw [writeLoop_succ hlt h, blockOf_natCast]
      simp only [sat_bind, sat_pure]
      by_cases hfull : pieceSize o buff.length k = blockSize
      · rw [decide_eq_false (not_not.mpr hfull), sat_blockGet]
        intro x
        simp only [sat_read, sat_write, sat_blockCommit, Function.update_self,
          Function.update_idem]
        exact hround x (Or.inr hfull)
      · rw [decide_eq_true hfull]
        exact hround _ (Or.inl rfl)
    · obtain rfl : k = buff.length := le_antisymm hk hge
      rw [writeLoop_done h, sat_pure, List.drop_length]
      exact ⟨rfl, wrote_nil map s _⟩

/-- `read` copies the rest of the range. -/
theorem readLoop_flat (map : Nat → Nat) (s : BlockStore) (inode : Inode) (out : List UInt8)
    {n : Nat} (h : o + n < 2 ^ 31) {fuel k : Nat} (hk : k ≤ n) (hfuel : n - k < fuel)
    (unread : List (Option Block)) :
    (readLoop (blockOf map) o n fuel inode out k (o + k : Nat)).flat unread s =
      (some (inode, out ++ bytesAt map s (o + k) (n - k), ((o + n : Nat) : Int)), unread, s) := by
  induction fuel generalizing k out with
  | zero => omega
  | succ fuel ih =>
    rcases Nat.lt_or_ge k n with hlt | hge
    · have hle := pieceSize_le (o := o) hlt
      have hpos := pieceSize_pos (o := o) hlt
      have hpiece : bytesAt map s (o + k) (pieceSize o n k) =
          (List.range' ((o + k) % blockSize) (pieceSize o n k)).map
            (Bytes.get (s (map ((o + k) / blockSize)))) := bytesAt_piece pieceSize_fits
      rw [readLoop_succ hlt h, blockOf_natCast]
      show BlockProg.flat (readLoop (blockOf map) o n fuel inode _ _ _) unread s = _
      rw [ih _ hle (by omega), ← hpiece, List.append_assoc, ← Nat.add_assoc, bytesAt_append,
        show pieceSize o n k + (n - (k + pieceSize o n k)) = n - k by omega]
    · obtain rfl : k = n := le_antisymm hk hge
      rw [readLoop_done h, flat_pure, Nat.sub_self, bytesAt, List.range'_zero, List.map_nil,
        List.append_nil]

end Fixed

/-- For every one-to-one map from file blocks to blocks, `write` ends behind the
range, puts the buffer there and changes no other byte of any block, and `read`
ends behind the range, answers the bytes there and changes nothing. -/
theorem write_then_read (map : Nat → Nat) (hmap : OwnBlock map (2 ^ 19)) (file : OpenFile)
    (s : BlockStore) (unread : List (Option Block)) :
    (∀ (o : Nat) (buff : List UInt8) (fuel : Nat), o + buff.length + blockSize ≤ 2 ^ 31 →
      buff.length < fuel →
      ((writeWith (blockOf map) fuel (file.seek o) buff).flat unread s).1 =
          some (file.seek (o + buff.length : Nat)) ∧
        Wrote map s ((writeWith (blockOf map) fuel (file.seek o) buff).flat unread s).2.2
          o buff) ∧
    (∀ p m fuel : Nat, p + m + blockSize ≤ 2 ^ 31 → m < fuel →
      (readWith (blockOf map) fuel (file.seek p) m).flat unread s =
        (some (bytesAt map s p m, file.seek (p + m : Nat)), unread, s)) := by
  constructor
  · intro o buff fuel hinside hfuel
    have h : o + buff.length < 2 ^ 31 := by
      simp only [blockSize] at hinside
      omega
    obtain ⟨hret, hwrote⟩ :=
      (writeLoop_sat s file.inode hmap h (Nat.zero_le _) hfuel).flat unread
    rw [List.drop_zero] at hwrote
    have hcall := writeWith_flat (file.seek o) (Prod.ext hret rfl)
    rw [hcall]
    exact ⟨rfl, hwrote⟩
  · intro p m fuel hinside hfuel
    have h : p + m < 2 ^ 31 := by
      simp only [blockSize] at hinside
      omega
    have hread := readLoop_flat map s file.inode [] h (Nat.zero_le m) hfuel unread
    rw [List.nil_append, Nat.sub_zero, Nat.add_zero] at hread
    exact readWith_flat (file.seek p) hread

/-- The string `"hello world!\n"`. -/
def hello : List UInt8 := [104, 101, 108, 108, 111, 32, 119, 111, 114, 108, 100, 33, 10]

/-- Written across the end of the first block, and read from the second one. -/
theorem hello_reads_back :
    (((writeWith (blockOf (· + 517)) 14 (OpenFile.blank.seek (4090 : Nat)) hello).flat []
        fun _ => zeroBlock).1 = some (OpenFile.blank.seek (4090 + hello.length : Nat)) ∧
      Wrote (· + 517) (fun _ => zeroBlock) ((writeWith (blockOf (· + 517)) 14
        (OpenFile.blank.seek (4090 : Nat)) hello).flat [] fun _ => zeroBlock).2.2 4090 hello) ∧
    (readWith (blockOf (· + 517)) 8 (OpenFile.blank.seek (4096 : Nat)) 7).flat []
        (fun _ => zeroBlock) =
      (some (bytesAt (· + 517) (fun _ => zeroBlock) 4096 7,
        OpenFile.blank.seek (4096 + 7 : Nat)), [], fun _ => zeroBlock) := by
  have hmap : OwnBlock (· + 517) (2 ^ 19) := fun i _ j _ heq => Nat.add_right_cancel heq
  obtain ⟨hwrite, hread⟩ := write_then_read (· + 517) hmap OpenFile.blank (fun _ => zeroBlock) []
  exact ⟨hwrite 4090 hello 14 (by decide) (by decide), hread 4096 7 8 (by decide) (by decide)⟩

end MipsOs.Fs
