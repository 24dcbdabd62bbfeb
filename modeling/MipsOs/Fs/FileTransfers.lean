import MipsOs.Fs.Exhaustion
import MipsOs.Fs.FileSteps

/-!
# Transfers and the bytes of files

`write` and `read` are one loop, `pieceRounds`, over the pieces of a range: a piece asks
`find_data_block` for its block, and copies to it or from it.

A file holds a byte at an offset when the block of the offset is there (`HasByte`).
`writeFrom_extended` and `readFrom_extended` are the results.  A write puts its bytes
into the file, and neither call loses a byte of any file; both go through the copy of
the inode that the open file has, so the newest inode of the file is the one to look
at afterwards (`withCopy`).
-/

namespace MipsOs.Fs

open MipsOs.Lib MipsOs.Lib.BlockProg

/-! ## The bytes of a file -/

/-- The map from the blocks of a file to blocks of the partition. -/
def fileMap (s : BlockStore) (n : Inode) (iBlock : Nat) : Nat := (dataPart iBlock).addr s n

/-- The file has a block for the offset, and the byte there is `v`. -/
structure HasByte (s : BlockStore) (n : Inode) (x : Nat) (v : UInt8) : Prop where
  lt : x / blockSize < maxFileBlocks
  present : fileMap s n (x / blockSize) ≠ 0
  byte_eq : Bytes.get (s (fileMap s n (x / blockSize))) (x % blockSize) = v

/-- From `off` on file `i` has the bytes, and all other bytes of files are kept. -/
structure WroteFile (sb : SuperBlock) (s t : BlockStore) (inodes inodes' : Nat → Inode)
    (i off : Nat) (bytes : List UInt8) : Prop where
  inside : ∀ k < bytes.length, HasByte t (inodes' i) (off + k) (bytes.getD k 0)
  outside : ∀ j x v, Allocated sb s j → (j = i → x < off ∨ off + bytes.length ≤ x) →
    HasByte s (inodes j) x v → HasByte t (inodes' j) x v

section Bytes

variable {sb : SuperBlock} {s t u : BlockStore} {inodes inodes' inodes'' : Nat → Inode}
  {i j off x : Nat} {v : UInt8} {n : Inode} {written : Set Place}

theorem HasByte.place (h : HasByte s (inodes j) x v) (hj : Allocated sb s j) :
    (⟨j, dataPart (x / blockSize)⟩ : Place) ∈ references sb s inodes :=
  ⟨hj, dataPart_ok h.lt, h.present⟩

theorem HasByte.congr {m : Inode} (h : HasByte s n x v)
    (haddr : fileMap t m (x / blockSize) = fileMap s n (x / blockSize))
    (hdata : t (fileMap s n (x / blockSize)) = s (fileMap s n (x / blockSize))) :
    HasByte t m x v := by
  refine ⟨h.lt, haddr.trans_ne h.present, ?_⟩
  rw [haddr, hdata]
  exact h.byte_eq

/-- A step that does not write the block keeps the byte. -/
theorem FileStep.hasByte (h : FileStep sb written s t inodes inodes') (hj : Allocated sb s j)
    (hnot : ⟨j, dataPart (x / blockSize)⟩ ∉ written) (hv : HasByte s (inodes j) x v) :
    HasByte t (inodes' j) x v :=
  have hplace := hv.place hj
  hv.congr (h.block_eq _ hplace) (h.data_eq _ hplace dataPart_not_index hnot)

theorem FileStep.wroteFile_nil (h : FileStep sb ∅ s t inodes inodes') :
    WroteFile sb s t inodes inodes' i off [] where
  inside k hk := absurd hk (Nat.not_lt_zero k)
  outside _ _ _ hj _ hv := h.hasByte hj (Set.notMem_empty _) hv

theorem WroteFile.append {xs ys : List UInt8} (h : WroteFile sb s t inodes inodes' i off xs)
    (h' : WroteFile sb t u inodes' inodes'' i (off + xs.length) ys)
    (hused : ∀ j, Allocated sb t j ↔ Allocated sb s j) (hi : Allocated sb s i) :
    WroteFile sb s u inodes inodes'' i off (xs ++ ys) where
  inside k hk := by
    rw [List.length_append] at hk
    by_cases hleft : k < xs.length
    · have hold := h.inside k hleft
      rw [List.getD_append _ _ _ _ hleft]
      exact h'.outside i _ _ ((hused i).mpr hi) (fun _ => .inl (by omega)) hold
    · have hinside := h'.inside (k - xs.length) (by omega)
      rw [show off + xs.length + (k - xs.length) = off + k by omega] at hinside
      rwa [List.getD_append_right _ _ _ _ (by omega)]
  outside j x v hj hout hv := by
    rw [List.length_append] at hout
    refine h'.outside j x v ((hused j).mpr hj) (fun hji => ?_)
      (h.outside j x v hj (fun hji => ?_) hv)
    · rcases hout hji with hlt | hge
      · exact .inl (by omega)
      · exact .inr (by omega)
    · rcases hout hji with hlt | hge
      · exact .inl hlt
      · exact .inr (by omega)

/-- The addresses stay when a block of data is written. -/
theorem Reconciled.addr_updateData (h : Reconciled sb s inodes) {p q : Part}
    (hi : Allocated sb s i) (hp : p.Ok) (hdata : ¬ p.IsIndex) (hj : Allocated sb s j) (hq : q.Ok)
    (y : Block) :
    q.addr (Function.update s (p.addr s (inodes i)) y) (inodes j) = q.addr s (inodes j) := by
  apply addr_congr _ hq
  intro r hr hrne
  exact Function.update_of_ne (h.index_ne hj hr hrne hi hp hdata) _ _

/-- A write to a block of data, as a step. -/
theorem Reconciled.fileStep_updateData (h : Reconciled sb s inodes) (hr : Regions sb) {p : Part}
    (hi : Allocated sb s i) (hp : p.Ok) (hdata : ¬ p.IsIndex) (hne : p.addr s (inodes i) ≠ 0)
    (y : Block) :
    FileStep sb {⟨i, p⟩} s (Function.update s (p.addr s (inodes i)) y) inodes inodes where
  used_iff _ := inodeUsed_updateData hr (h.taken hi hp hne).le
  inode_eq _ hj := inodeOf_updateData hr (h.taken hi hp hne).le hj
  blockUsed _ hb := (blockUsed_updateData hr (h.taken hi hp hne).le hb).mpr
  block_eq _ ho := h.addr_updateData hi hp hdata ho.1 ho.2.1 y
  data_eq o ho _ hnot := by
    apply Function.update_of_ne
    intro heq
    obtain ⟨hinode, hpart⟩ := h.place_eq ho.1 ho.2.1 ho.2.2 hi hp heq
    exact hnot (Place.ext hinode hpart)

/-- A piece that is written into its block. -/
theorem Reconciled.wroteFile_piece (h : Reconciled sb s inodes) {piece : List UInt8}
    (hi : Allocated sb s i) (hmax : off / blockSize < maxFileBlocks)
    (hne : fileMap s (inodes i) (off / blockSize) ≠ 0)
    (hfits : off % blockSize + piece.length ≤ blockSize) (page : Block)
    (hpage : page = s (fileMap s (inodes i) (off / blockSize)) ∨ piece.length = blockSize) :
    WroteFile sb s (Function.update s (fileMap s (inodes i) (off / blockSize))
      (Bytes.paste page (off % blockSize) piece)) inodes inodes i off piece := by
  have hok := dataPart_ok hmax
  have haddr : ∀ j, Allocated sb s j → ∀ l < maxFileBlocks,
      fileMap (Function.update s (fileMap s (inodes i) (off / blockSize))
        (Bytes.paste page (off % blockSize) piece)) (inodes j) l = fileMap s (inodes j) l :=
    fun j hj l hl => h.addr_updateData hi hok dataPart_not_index hj (dataPart_ok hl) _
  have hwrote := @wrote_piece blockSize (fileMap s (inodes i)) s off piece hfits page hpage
  constructor
  · intro k hk
    obtain ⟨hdiv, hmod⟩ := piece_div_mod hfits hk
    have hlt : (off + k) / blockSize < maxFileBlocks := hdiv ▸ hmax
    refine ⟨hlt, ?_, ?_⟩
    · rw [haddr i hi _ hlt, hdiv]
      exact hne
    · rw [haddr i hi _ hlt]
      exact hwrote.inside k hk
  · intro j x v hj hout hv
    have hsame := haddr j hj _ hv.lt
    refine ⟨hv.lt, hsame.trans_ne hv.present, ?_⟩
    rw [← hv.byte_eq, hsame]
    apply hwrote.outside
    intro k hk ⟨hblock, hpos⟩
    obtain ⟨hdiv, hmod⟩ := piece_div_mod hfits hk
    rw [hdiv] at hblock
    obtain ⟨hji, hpart⟩ := h.place_eq hi hok hne hj (dataPart_ok hv.lt) hblock
    have hindex := dataPart_injective hpart
    have hx := Nat.div_add_mod x blockSize
    have hoff := Nat.div_add_mod (off + k) blockSize
    rw [hdiv, hpos, hindex, hx] at hoff
    rcases hout hji.symm with hlt | hge
    · omega
    · omega

end Bytes

/-! ## The loop -/

/-- The loop of `write` and `read` over the pieces of the range `[offset, offset + size)`.
A piece answers the copy of the inode and the bytes that it has read. -/
def pieceRounds (piece : Inode → Nat → Prog (Inode × List UInt8)) (offset size : Nat) :
    Nat → Inode → List UInt8 → Nat → Prog (Inode × List UInt8)
  | 0, n, out, _ => return (n, out)
  | fuel + 1, n, out, k =>
    if k < size then do
      let (n, bytes) ← piece n k
      pieceRounds piece offset size fuel n (out ++ bytes) (k + pieceSize offset size k)
    else
      return (n, out)

/-- In every round the blocks that the way to the file block needs are free, and the
pages that arrive on it are blank. -/
def RoundsOk (sb : SuperBlock) (piece : Inode → Nat → Prog (Inode × List UInt8))
    (offset size : Nat) : Nat → Inode → Nat → List (Option Block) → BlockStore → Prop
  | 0, _, _, _, _ => True
  | fuel + 1, n, k, unread, s => k < size →
      CanReach sb s n (dataPart ((offset + k) / blockSize)) unread ∧
      RoundsOk sb piece offset size fuel ((piece n k).flat unread s).1.1
        (k + pieceSize offset size k) ((piece n k).flat unread s).2.1
        ((piece n k).flat unread s).2.2

/-- The body of the loop of `write`. -/
def writePiece (sb : SuperBlock) (undef : Nat) (buff : List UInt8) (offset : Nat) (n : Inode)
    (k : Nat) : Prog (Inode × List UInt8) := do
  let (dataBlockId, n) ← findDataBlock sb undef n (offset + k)
  let dataBlock ← blockGet dataBlockId (pieceSize offset buff.length k ≠ blockSize)
  write dataBlock (Bytes.paste (← read dataBlock) ((offset + k) % blockSize)
    ((buff.drop k).take (pieceSize offset buff.length k)))
  blockCommit dataBlock true
  return (n, [])

/-- The body of the loop of `read`. -/
def readPiece (sb : SuperBlock) (undef offset size : Nat) (n : Inode) (k : Nat) :
    Prog (Inode × List UInt8) := do
  let (dataBlockId, n) ← findDataBlock sb undef n (offset + k)
  let dataBlock ← blockGet dataBlockId true
  let data ← read dataBlock
  blockCommit dataBlock false
  return (n, (List.range' ((offset + k) % blockSize) (pieceSize offset size k)).map
    (Bytes.get data))

section Loops

variable {sb : SuperBlock} {undef o size fuel k : Nat} {s : BlockStore} {n : Inode}
  {out buff : List UInt8} {unread : List (Option Block)}

/-- A round of `write` is its piece, and the rest. -/
theorem writeFrom_piece (hk : k < buff.length) :
    (writeFrom sb undef buff o (fuel + 1) n k (o + k)).flat unread s =
      (writeFrom sb undef buff o fuel ((writePiece sb undef buff o n k).flat unread s).1.1
        (k + pieceSize o buff.length k) (o + (k + pieceSize o buff.length k))).flat
          ((writePiece sb undef buff o n k).flat unread s).2.1
          ((writePiece sb undef buff o n k).flat unread s).2.2 := by
  rw [writeFrom, if_pos hk, ← pieceEnd_eq hk]
  dsimp only
  rw [← pieceSize]
  simp only [writePiece, flat_bind]
  rfl

theorem writeFrom_pieces (hk : k ≤ buff.length) (hfuel : buff.length - k ≤ fuel) :
    (writeFrom sb undef buff o fuel n k (o + k)).flat unread s =
      ((pieceRounds (writePiece sb undef buff o) o buff.length fuel n out k).flat unread s).map
        (fun r => (r.1, o + buff.length)) id := by
  induction fuel generalizing n k out unread s with
  | zero =>
    obtain rfl : k = buff.length := by omega
    rfl
  | succ fuel ih =>
    by_cases hlt : k < buff.length
    · have hpos := pieceSize_pos (o := o) hlt
      have hle := pieceSize_le (o := o) hlt
      rw [writeFrom_piece hlt, pieceRounds, if_pos hlt, flat_bind]
      exact ih hle (by omega)
    · obtain rfl : k = buff.length := by omega
      rw [writeFrom, if_neg hlt, pieceRounds, if_neg hlt]
      rfl

theorem readFrom_piece (hk : k < size) (hout : out.length = k) :
    (readFrom sb undef size o (fuel + 1) n out (o + k)).flat unread s =
      (readFrom sb undef size o fuel ((readPiece sb undef o size n k).flat unread s).1.1
        (out ++ ((readPiece sb undef o size n k).flat unread s).1.2)
        (o + (k + pieceSize o size k))).flat
          ((readPiece sb undef o size n k).flat unread s).2.1
          ((readPiece sb undef o size n k).flat unread s).2.2 := by
  rw [readFrom, hout, if_pos hk, ← pieceEnd_eq hk]
  dsimp only
  rw [← pieceSize]
  simp only [readPiece, flat_bind]
  rfl

theorem length_readPiece :
    ((readPiece sb undef o size n k).flat unread s).1.2.length = pieceSize o size k := by
  rw [readPiece, flat_bind]
  show (List.map _ _).length = _
  rw [List.length_map, List.length_range']

theorem readFrom_pieces (hk : k ≤ size) (hfuel : size - k ≤ fuel) (hout : out.length = k) :
    (readFrom sb undef size o fuel n out (o + k)).flat unread s =
      ((pieceRounds (readPiece sb undef o size) o size fuel n out k).flat unread s).map
        (fun r => (r.1, r.2, o + size)) id := by
  induction fuel generalizing n k out unread s with
  | zero =>
    obtain rfl : k = size := by omega
    rfl
  | succ fuel ih =>
    by_cases hlt : k < size
    · have hpos := pieceSize_pos (o := o) hlt
      have hle := pieceSize_le (o := o) hlt
      rw [readFrom_piece hlt hout, pieceRounds, if_pos hlt, flat_bind]
      apply ih hle (by omega)
      rw [List.length_append, length_readPiece, hout]
    · obtain rfl : k = size := by omega
      rw [readFrom, if_neg (by omega), pieceRounds, if_neg hlt]
      rfl

/-- The rule for the loop: what every round keeps holds at its end. -/
theorem pieceRounds_rule {piece : Inode → Nat → Prog (Inode × List UInt8)}
    (I : Nat → Inode → List UInt8 → BlockStore → Prop)
    (hstep : ∀ k n out unread s, k < size → I k n out s →
      CanReach sb s n (dataPart ((o + k) / blockSize)) unread →
      I (k + pieceSize o size k) ((piece n k).flat unread s).1.1
        (out ++ ((piece n k).flat unread s).1.2) ((piece n k).flat unread s).2.2)
    (hk : k ≤ size) (hfuel : size - k ≤ fuel) (h : I k n out s)
    (hok : RoundsOk sb piece o size fuel n k unread s) :
    I size ((pieceRounds piece o size fuel n out k).flat unread s).1.1
      ((pieceRounds piece o size fuel n out k).flat unread s).1.2
      ((pieceRounds piece o size fuel n out k).flat unread s).2.2 := by
  induction fuel generalizing n out k unread s with
  | zero =>
    obtain rfl : k = size := by omega
    exact h
  | succ fuel ih =>
    by_cases hlt : k < size
    · have hpos := pieceSize_pos (o := o) hlt
      have hle := pieceSize_le (o := o) hlt
      obtain ⟨hreach, hrest⟩ := hok hlt
      rw [pieceRounds, if_pos hlt, flat_bind]
      exact ih hle (by omega) (hstep k n out unread s hlt h hreach) hrest
    · obtain rfl : k = size := by omega
      rw [pieceRounds, if_neg hlt]
      exact h

end Loops

/-! ## A piece -/

section Pieces

variable {sb : SuperBlock} {undef i o size k b : Nat} {s t : BlockStore} {n m : Inode}
  {inodes : Nat → Inode} {buff : List UInt8} {unread rest : List (Option Block)}

/-- The places of one inode. -/
def placesOf (i : Nat) : Set Place := {p | p.inodeId = i}

/-- What a piece of a write stores.  A page that is not read is filled. -/
theorem writePiece_flat
    (h : (findDataBlock sb undef n (o + k)).flat unread s = ((b, m), rest, t)) :
    ∃ rest' page, (writePiece sb undef buff o n k).flat unread s =
        ((m, []), rest', Function.update t b (Bytes.paste page ((o + k) % blockSize)
          ((buff.drop k).take (pieceSize o buff.length k)))) ∧
      (page = t b ∨ pieceSize o buff.length k = blockSize) := by
  simp only [writePiece, flat_bind, h]
  by_cases hfull : pieceSize o buff.length k = blockSize
  · refine ⟨rest.tail, arrive t b rest.head?.join b, ?_, .inr hfull⟩
    rw [decide_eq_false (not_not.mpr hfull), ← update_arrive t b rest.head?.join]
    rfl
  · refine ⟨rest, t b, ?_, .inl rfl⟩
    rw [decide_eq_true hfull]
    rfl

/-- The next block of a range inside of the largest file. -/
theorem piece_lt_max (hk : k < size) (hmax : o + size ≤ maxFileBlocks * blockSize) :
    (o + k) / blockSize < maxFileBlocks := by
  apply Nat.div_lt_of_lt_mul
  rw [Nat.mul_comm]
  omega

theorem writePiece_extended (hr : Regions sb) (hrec : Reconciled sb s inodes)
    (hi : Allocated sb s i) (hold : KeepsSlots n (inodes i)) (hk : k < buff.length)
    (hmax : o + buff.length ≤ maxFileBlocks * blockSize)
    (hreach : CanReach sb s n (dataPart ((o + k) / blockSize)) unread)
    (hslot : SlotKnown n (inodes i) (dataPart ((o + k) / blockSize)).root) :
    Extended sb i (placesOf i) s inodes n ((writePiece sb undef buff o n k).flat unread s).2.2
        ((writePiece sb undef buff o n k).flat unread s).1.1 ∧
      WroteFile sb s ((writePiece sb undef buff o n k).flat unread s).2.2 inodes
        (withCopy inodes i ((writePiece sb undef buff o n k).flat unread s).1.1) i (o + k)
        ((buff.drop k).take (pieceSize o buff.length k)) := by
  have hround := piece_lt_max hk hmax
  have hok := dataPart_ok hround
  have hle := pieceSize_le (o := o) hk
  have hlen : ((buff.drop k).take (pieceSize o buff.length k)).length =
      pieceSize o buff.length k := by
    rw [List.length_take, List.length_drop]
    omega
  obtain ⟨t, m, rest, b, hflat, hext, hb, hne⟩ :=
    @findDataBlock_extended sb s inodes i (o + k) undef n unread hr hrec hi hold hround hreach hslot
  obtain ⟨rest', page, hpiece, hpage⟩ := @writePiece_flat _ _ _ _ _ _ _ _ _ buff _ _ hflat
  rw [hpiece]
  dsimp only
  have hblock : b = (dataPart ((o + k) / blockSize)).addr t (withCopy inodes i m i) := by
    rw [withCopy_self, (keepsSlots_join (inodes i) m).addr (hb ▸ hne), hb]
  have hi' := hext.step.allocated_iff.mpr hi
  have hne' := hblock ▸ hne
  have hself : withCopy (withCopy inodes i m) i m = withCopy inodes i m :=
    withCopy_withCopy (KeepsSlots.refl m)
  have hwrite : Extended sb i {⟨i, dataPart ((o + k) / blockSize)⟩} t (withCopy inodes i m) m
      (Function.update t b (Bytes.paste page ((o + k) % blockSize)
        ((buff.drop k).take (pieceSize o buff.length k)))) m := by
    rw [hblock]
    refine ⟨?_, ?_, KeepsSlots.refl m, SameHead.refl m, le_max_left _ _⟩
    · rw [hself]
      exact hext.reconciled.updateData hr hi' hok dataPart_not_index hne' _
    · rw [hself]
      exact hext.reconciled.fileStep_updateData hr hi' hok dataPart_not_index hne' _
  constructor
  · have hboth := hext.trans hwrite
    exact ⟨hboth.reconciled, hboth.step.mono (by rintro p (hp | rfl); exacts [hp.elim, rfl]),
      hboth.keeps, hboth.head, hboth.size_le⟩
  · have hstart : WroteFile sb s t inodes (withCopy inodes i m) i (o + k) [] :=
      hext.step.wroteFile_nil
    have hfits : (o + k) % blockSize +
        ((buff.drop k).take (pieceSize o buff.length k)).length ≤ blockSize := by
      rw [hlen]
      exact pieceSize_fits
    have hpage' : page = t (fileMap t (withCopy inodes i m i) ((o + k) / blockSize)) ∨
        ((buff.drop k).take (pieceSize o buff.length k)).length = blockSize := by
      rw [hlen]
      exact hpage.imp_left fun heq => heq.trans (congrArg t hblock)
    have hwrote := hext.reconciled.wroteFile_piece hi' hround hne' hfits page hpage'
    have hboth := hstart.append hwrote (fun j => hext.step.allocated_iff) hi
    rw [hblock]
    exact hboth

/-- The bytes of a piece are those that the file has. -/
theorem readPiece_extended (hr : Regions sb) (hrec : Reconciled sb s inodes)
    (hi : Allocated sb s i) (hold : KeepsSlots n (inodes i)) (hk : k < size)
    (hmax : o + size ≤ maxFileBlocks * blockSize)
    (hreach : CanReach sb s n (dataPart ((o + k) / blockSize)) unread)
    (hslot : SlotKnown n (inodes i) (dataPart ((o + k) / blockSize)).root) :
    Extended sb i ∅ s inodes n ((readPiece sb undef o size n k).flat unread s).2.2
        ((readPiece sb undef o size n k).flat unread s).1.1 ∧
      ∀ l < pieceSize o size k, ∀ v, HasByte s (inodes i) (o + k + l) v →
        ((readPiece sb undef o size n k).flat unread s).1.2.getD l 0 = v := by
  have hround := piece_lt_max hk hmax
  obtain ⟨t, m, rest, b, hflat, hext, hb, hne⟩ :=
    @findDataBlock_extended sb s inodes i (o + k) undef n unread hr hrec hi hold hround hreach hslot
  have hpiece : (readPiece sb undef o size n k).flat unread s =
      ((m, (List.range' ((o + k) % blockSize) (pieceSize o size k)).map (Bytes.get (t b))),
        rest, t) := by
    simp only [readPiece, flat_bind, hflat]
    rfl
  rw [hpiece]
  refine ⟨hext, fun l hl v hv => ?_⟩
  obtain ⟨hdiv, hmod⟩ := piece_div_mod (pieceSize_fits (o := o) (n := size) (k := k)) hl
  have hkept := hext.step.hasByte hi (Set.notMem_empty _) hv
  have hbyte := hkept.byte_eq
  have hblock : b = fileMap t (withCopy inodes i m i) ((o + k) / blockSize) := by
    rw [withCopy_self, fileMap, (keepsSlots_join (inodes i) m).addr (hb ▸ hne), hb]
  rw [hdiv, hmod, ← hblock] at hbyte
  rw [List.getD_eq_getElem _ _ (by rw [List.length_map, List.length_range']; exact hl),
    List.getElem_map, List.getElem_range', Nat.one_mul]
  exact hbyte

end Pieces

/-! ## The calls -/

/-- Every slot that the range needs is in the copy, or in no inode of the file. -/
def SlotsKnown (n newest : Inode) (o size : Nat) : Prop :=
  ∀ k < size, SlotKnown n newest (dataPart ((o + k) / blockSize)).root

section Calls

variable {sb : SuperBlock} {undef i o size : Nat} {s : BlockStore} {n : Inode}
  {inodes : Nat → Inode} {buff : List UInt8} {unread : List (Option Block)}

/-- The newer copy knows what the older one did. -/
theorem SlotsKnown.extended {t : BlockStore} {m : Inode} {written : Set Place}
    (h : SlotsKnown n (inodes i) o size) (hext : Extended sb i written s inodes n t m) :
    SlotsKnown m (withCopy inodes i m i) o size := by
  intro k hk
  rw [withCopy_self]
  exact (h k hk).keeps hext.keeps

/-- The loop of `write` after `k` bytes. -/
structure WrittenTo (sb : SuperBlock) (s : BlockStore) (inodes : Nat → Inode) (i : Nat) (n : Inode)
    (o : Nat) (buff : List UInt8) (k : Nat) (m : Inode) (t : BlockStore) : Prop where
  extended : Extended sb i (placesOf i) s inodes n t m
  wrote : WroteFile sb s t inodes (withCopy inodes i m) i o (buff.take k)

/-- The loop of `read` after `k` bytes. -/
structure ReadTo (sb : SuperBlock) (s : BlockStore) (inodes : Nat → Inode) (i : Nat) (n : Inode)
    (o k : Nat) (m : Inode) (out : List UInt8) (t : BlockStore) : Prop where
  extended : Extended sb i ∅ s inodes n t m
  bytes : ∀ l < k, ∀ v, HasByte s (inodes i) (o + l) v → out.getD l 0 = v
  length_eq : out.length = k

theorem keepsSlots_withCopy (inodes : Nat → Inode) (i : Nat) (m : Inode) :
    KeepsSlots m (withCopy inodes i m i) := by
  rw [withCopy_self]
  exact keepsSlots_join _ _

theorem WrittenTo.piece {t : BlockStore} {m : Inode} {k : Nat} (hr : Regions sb)
    (hi : Allocated sb s i) (hmax : o + buff.length ≤ maxFileBlocks * blockSize)
    (hslots : SlotsKnown n (inodes i) o buff.length) (hk : k < buff.length)
    (h : WrittenTo sb s inodes i n o buff k m t)
    (hreach : CanReach sb t m (dataPart ((o + k) / blockSize)) unread) :
    WrittenTo sb s inodes i n o buff (k + pieceSize o buff.length k)
      ((writePiece sb undef buff o m k).flat unread t).1.1
      ((writePiece sb undef buff o m k).flat unread t).2.2 := by
  have hext := h.extended
  obtain ⟨hext', hwrote'⟩ := @writePiece_extended sb undef i o k t m _ buff unread hr
    hext.reconciled (hext.step.allocated_iff.mpr hi) (keepsSlots_withCopy inodes i m) hk hmax
    hreach (hslots.extended hext k hk)
  constructor
  · have hboth := hext.trans hext'
    rwa [Set.union_self] at hboth
  · rw [withCopy_withCopy hext'.keeps] at hwrote'
    rw [List.take_add]
    apply h.wrote.append _ (fun j => hext.step.allocated_iff) hi
    rwa [List.length_take, min_eq_left hk.le]

theorem ReadTo.piece {t : BlockStore} {m : Inode} {out : List UInt8} {k : Nat} (hr : Regions sb)
    (hi : Allocated sb s i) (hmax : o + size ≤ maxFileBlocks * blockSize)
    (hslots : SlotsKnown n (inodes i) o size) (hk : k < size)
    (h : ReadTo sb s inodes i n o k m out t)
    (hreach : CanReach sb t m (dataPart ((o + k) / blockSize)) unread) :
    ReadTo sb s inodes i n o (k + pieceSize o size k)
      ((readPiece sb undef o size m k).flat unread t).1.1
      (out ++ ((readPiece sb undef o size m k).flat unread t).1.2)
      ((readPiece sb undef o size m k).flat unread t).2.2 := by
  have hext := h.extended
  have hlen := h.length_eq
  obtain ⟨hext', hbytes'⟩ := @readPiece_extended sb undef i o size k t m _ unread hr
    hext.reconciled (hext.step.allocated_iff.mpr hi) (keepsSlots_withCopy inodes i m) hk hmax
    hreach (hslots.extended hext k hk)
  constructor
  · have hboth := hext.trans hext'
    rwa [Set.union_self] at hboth
  · intro l hl v hv
    by_cases hlk : l < k
    · rw [List.getD_append _ _ _ _ (by omega)]
      exact h.bytes l hlk v hv
    · rw [List.getD_append_right _ _ _ _ (by omega), hlen]
      apply hbytes' (l - k) (by omega)
      rw [show o + k + (l - k) = o + l by omega]
      exact hext.step.hasByte hi (Set.notMem_empty _) hv
  · rw [List.length_append, length_readPiece, hlen]

/-- `write` extends the file and puts the buffer into it. -/
theorem writeFrom_extended (hr : Regions sb) (hrec : Reconciled sb s inodes)
    (hi : Allocated sb s i) (hold : KeepsSlots n (inodes i))
    (hmax : o + buff.length ≤ maxFileBlocks * blockSize)
    (hslots : SlotsKnown n (inodes i) o buff.length)
    (hok : RoundsOk sb (writePiece sb undef buff o) o buff.length buff.length n 0 unread s) :
    WrittenTo sb s inodes i n o buff buff.length
        ((writeFrom sb undef buff o buff.length n 0 o).flat unread s).1.1
        ((writeFrom sb undef buff o buff.length n 0 o).flat unread s).2.2 ∧
      ((writeFrom sb undef buff o buff.length n 0 o).flat unread s).1.2 = o + buff.length := by
  have hrounds := @writeFrom_pieces sb undef o buff.length 0 s n [] buff unread (Nat.zero_le _)
    (Nat.sub_le _ _)
  rw [Nat.add_zero] at hrounds
  rw [hrounds]
  have hempty := Extended.refl hrec hold
  have hstart : WrittenTo sb s inodes i n o buff 0 n s :=
    ⟨⟨hempty.reconciled, hempty.step.mono (Set.empty_subset _), hempty.keeps, hempty.head,
      hempty.size_le⟩, hempty.step.wroteFile_nil⟩
  have hend := @pieceRounds_rule sb o buff.length buff.length 0 s n [] unread
    (writePiece sb undef buff o) (fun k m _ t => WrittenTo sb s inodes i n o buff k m t)
    (fun k m out unread t hk h hreach => h.piece hr hi hmax hslots hk hreach)
    (Nat.zero_le _) (Nat.sub_le _ _) hstart hok
  exact ⟨hend, rfl⟩

/-- `read` extends the file, and answers the bytes that it has. -/
theorem readFrom_extended (hr : Regions sb) (hrec : Reconciled sb s inodes)
    (hi : Allocated sb s i) (hold : KeepsSlots n (inodes i))
    (hmax : o + size ≤ maxFileBlocks * blockSize) (hslots : SlotsKnown n (inodes i) o size)
    (hok : RoundsOk sb (readPiece sb undef o size) o size size n 0 unread s) :
    ReadTo sb s inodes i n o size
        ((readFrom sb undef size o size n [] o).flat unread s).1.1
        ((readFrom sb undef size o size n [] o).flat unread s).1.2.1
        ((readFrom sb undef size o size n [] o).flat unread s).2.2 ∧
      ((readFrom sb undef size o size n [] o).flat unread s).1.2.2 = o + size := by
  have hrounds := @readFrom_pieces sb undef o size size 0 s n [] unread (Nat.zero_le _)
    (Nat.sub_le _ _) rfl
  rw [Nat.add_zero] at hrounds
  rw [hrounds]
  have hend := @pieceRounds_rule sb o size size 0 s n [] unread (readPiece sb undef o size)
    (fun k m out t => ReadTo sb s inodes i n o k m out t)
    (fun k m out unread t hk h hreach => h.piece hr hi hmax hslots hk hreach)
    (Nat.zero_le _) (Nat.sub_le _ _)
    ⟨Extended.refl hrec hold, fun l hl => absurd hl (Nat.not_lt_zero l), rfl⟩ hok
  exact ⟨hend, rfl⟩

end Calls

end MipsOs.Fs
