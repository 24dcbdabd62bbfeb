import MipsOs.Fs.FileParts
import MipsOs.Fs.Transfer
import MipsOs.Lib.MachineInt

/-!
# Where `write` and `read` copy after `seek`

`seek` stores any `int`.  The two loops of `fs/fs.c` are one loop, `logLoop`, that
logs its calls of `memcpy`: the block that the lookup has answered, the offset in
the file that it was asked for, and the length as the `uint32_t` that `memcpy` gets.
`writeLoop_logged` and `readLoop_logged` say that the loops of `Fs.Transfer` are
this loop without the log.

Where the loop copies depends on the offset and the size alone (`rounds`).  From an
offset that is not negative the copies follow each other up to the end of the
transfer or up to `2 ^ 31`, whichever comes first; a transfer that ends at `2 ^ 31`
is still complete, although its last `file_end` wraps around.  Everything else has a
copy that leaves its block or the file.
-/

namespace MipsOs.Fs

open MipsOs.Lib MipsOs.Lib.BlockProg

/-- The range of one call of `memcpy`, by the offset in the file. -/
structure CopyRange where
  fileOff : Int
  len : Nat
  deriving DecidableEq, Repr

namespace CopyRange

/-- `i_block`, as `find_data_block` computes it -/
def iBlock (r : CopyRange) : Int := r.fileOff.tdiv blockSize

/-- `(file_off) % BLOCK_SIZE` -/
def start (r : CopyRange) : Int := r.fileOff.tmod blockSize

/-- Every byte is in the page of the block, and the file has a block of this index. -/
def Inside (r : CopyRange) : Prop :=
  ∀ k < r.len, (0 ≤ r.start + k ∧ r.start + k < blockSize) ∧ 0 ≤ r.iBlock ∧
    r.iBlock < maxFileBlocks

end CopyRange

/-- A call of `memcpy` with the block whose buffer it touches. -/
structure Copy extends CopyRange where
  block : Nat

/-! ## The loop with a log -/

section Logged

variable {α : Type}

/-- What `write` and `read` do differently: the flag for `block_get`, and what happens
between `block_get` and the next round.  The arguments are the page, `file_off`,
`buff_off` and `copy_size`. -/
structure Transfer (α : Type) where
  doRead : Int → Bool
  move : Nat → Int → Int → Int → α → Prog α

/-- The loop body of `write`. -/
def writes (buff : List UInt8) : Transfer Unit where
  doRead copySize := copySize ≠ blockSize
  move dataBlock fileOff buffOff copySize _ := do
    write dataBlock (Bytes.paste (← read dataBlock) (fileOff.tmod blockSize).toNat
      ((buff.drop buffOff.toNat).take (asUint copySize)))
    blockCommit dataBlock true

/-- The loop body of `read`. -/
def reads : Transfer (List UInt8) where
  doRead _ := true
  move dataBlock fileOff _ copySize out := do
    let data ← read dataBlock
    blockCommit dataBlock false
    return out ++ (List.range' (fileOff.tmod blockSize).toNat (asUint copySize)).map
      (Bytes.get data)

variable (find : Inode → Int → Prog (Nat × Inode)) (d : Transfer α) (offset : Int) (size : Nat)

/-- The loop of a transfer.  The answer ends in the log. -/
def logLoop : Nat → Inode → α → Int → Int → List Copy → Prog (Option (Inode × α × Int × List Copy))
  | 0, _, _, _, _, _ => return none
  | fuel + 1, inode, a, buffOff, fileOff, log =>
    if asUint buffOff < size then do
      let copySize := copySize offset size fileOff
      let (dataBlockId, inode) ← find inode fileOff
      let dataBlock ← blockGet dataBlockId (d.doRead copySize)
      let a ← d.move dataBlock fileOff buffOff copySize a
      logLoop fuel inode a (toInt (buffOff + copySize)) (fileEnd offset size fileOff)
        (log ++ [{ fileOff := fileOff, len := asUint copySize, block := dataBlockId }])
    else
      return some (inode, a, fileOff, log)

/-- The ranges that the loop copies; `none` when `fuel` rounds do not suffice. -/
def rounds : Nat → Int → Int → Option (List CopyRange)
  | 0, _, _ => none
  | fuel + 1, buffOff, fileOff =>
    if asUint buffOff < size then
      (rounds fuel (toInt (buffOff + copySize offset size fileOff))
        (fileEnd offset size fileOff)).map
        ({ fileOff := fileOff, len := asUint (copySize offset size fileOff) } :: ·)
    else
      some []

variable {offset size}

/-- The loop of `write` is the logged loop. -/
theorem writeLoop_logged {buff : List UInt8} {fuel : Nat} {inode : Inode} {buffOff fileOff : Int}
    (log : List Copy) (unread : List (Option Block)) (s : BlockStore) :
    (writeLoop find offset buff fuel inode buffOff fileOff).flat unread s =
      ((logLoop find (writes buff) offset buff.length fuel inode () buffOff fileOff log).flat
        unread s).map (Option.map fun r => (r.1, r.2.2.1)) id := by
  induction fuel generalizing inode buffOff fileOff log unread s with
  | zero => rfl
  | succ fuel ih =>
    rw [writeLoop, logLoop]
    split
    · apply flat_bind_map
      intro found unread s
      apply flat_bind_map
      intro dataBlock unread s
      exact ih _ _ _
    · rfl

/-- The loop of `read` is the logged loop. -/
theorem readLoop_logged {fuel : Nat} {inode : Inode} {out : List UInt8} {buffOff fileOff : Int}
    (log : List Copy) (unread : List (Option Block)) (s : BlockStore) :
    (readLoop find offset size fuel inode out buffOff fileOff).flat unread s =
      ((logLoop find reads offset size fuel inode out buffOff fileOff log).flat
        unread s).map (Option.map fun r => (r.1, r.2.1, r.2.2.1)) id := by
  induction fuel generalizing inode out buffOff fileOff log unread s with
  | zero => rfl
  | succ fuel ih =>
    rw [readLoop, logLoop]
    split
    · apply flat_bind_map
      intro found unread s
      apply flat_bind_map
      intro dataBlock unread s
      exact ih _ _ _
    · rfl

/-- The ranges in the log do not depend on the store, on the lookup or on what is moved. -/
theorem logLoop_rounds {fuel : Nat} {inode : Inode} {a : α} {buffOff fileOff : Int}
    (log : List Copy) (unread : List (Option Block)) (s : BlockStore) :
    ((logLoop find d offset size fuel inode a buffOff fileOff log).flat unread s).1.map
        (fun r => r.2.2.2.map Copy.toCopyRange) =
      (rounds offset size fuel buffOff fileOff).map (log.map Copy.toCopyRange ++ ·) := by
  induction fuel generalizing inode a buffOff fileOff log unread s with
  | zero => rfl
  | succ fuel ih =>
    rw [logLoop, rounds]
    split
    · simp only [flat_bind]
      rw [ih, Option.map_map]
      congr 1
      funext rs
      simp only [List.map_append, List.map_cons, List.map_nil, List.append_assoc,
        Function.comp_apply, List.cons_append, List.nil_append]
    · simp only [flat_pure, Option.map_some, List.append_nil]

end Logged

/-! ## One round, with overflow -/

section Round

open MachineInt (Representable wrap)

theorem asUint_cast (i : Int) : (asUint i : Int) = i % 2 ^ 32 := by
  unfold asUint
  omega

/-- A stored result is what the machine computes. -/
theorem toInt_eq_wrap (i : Int) : toInt i = wrap 32 i := by
  unfold toInt asInt wrap
  rw [asUint_cast]
  exact Int.emod_bmod i (2 ^ 32)

theorem toInt_spec (i : Int) :
    -2 ^ 31 ≤ toInt i ∧ toInt i < 2 ^ 31 ∧ toInt i % 2 ^ 32 = i % 2 ^ 32 := by
  have hrange := MachineInt.representable_wrap (show 0 < 32 by decide) i
  have hmod := MachineInt.wrap_emod 32 i
  rw [← toInt_eq_wrap] at hrange hmod
  unfold Representable at hrange
  omega

variable {offset fileOff : Int} {size : Nat}

theorem fileEnd_eq (offset : Int) (size : Nat) (fileOff : Int) :
    fileEnd offset size fileOff =
      if (offset + size) % 2 ^ 32 < (fileOff.tdiv blockSize + 1) * blockSize % 2 ^ 32 then
        toInt (offset + size)
      else
        toInt ((fileOff.tdiv blockSize + 1) * blockSize) := by
  have hlast : ((asUint offset + size) % 2 ^ 32 : Nat) = asUint (offset + size) := by
    have hoffset := asUint_cast offset
    have hsum := asUint_cast (offset + size)
    omega
  have hblock := asUint_cast (toInt ((fileOff.tdiv blockSize + 1) * blockSize))
  rw [(toInt_spec _).2.2] at hblock
  unfold fileEnd
  simp only [hlast]
  rw [← hblock, ← asUint_cast]
  simp only [Nat.cast_lt]
  rfl

/-- The length that `memcpy` gets. -/
theorem copyLen_cast (offset : Int) (size : Nat) (fileOff : Int) :
    (asUint (copySize offset size fileOff) : Int) =
      (fileEnd offset size fileOff - fileOff) % 2 ^ 32 := by
  rw [asUint_cast, copySize, (toInt_spec _).2.2]

/-- A round copies nothing only at the end of the transfer. -/
theorem copyLen_pos (h : (offset + size) % 2 ^ 32 ≠ fileOff % 2 ^ 32) :
    0 < asUint (copySize offset size fileOff) := by
  have hlen := copyLen_cast offset size fileOff
  have hsplit := Int.mul_tdiv_add_tmod fileOff blockSize
  have hlo := Int.tmod_lt_of_pos fileOff (show (0 : Int) < blockSize by decide)
  have hhi := Int.lt_tmod_of_pos fileOff (show (0 : Int) < blockSize by decide)
  have hblock : (blockSize : Int) = 4096 := rfl
  rw [fileEnd_eq] at hlen
  rw [hblock] at hlen hsplit hlo hhi
  split at hlen
  · have hlast := toInt_spec (offset + size)
    generalize toInt (offset + size) = fileEnd at hlen hlast
    omega
  · have hend := toInt_spec ((fileOff.tdiv 4096 + 1) * 4096)
    generalize toInt ((fileOff.tdiv 4096 + 1) * 4096) = fileEnd at hlen hend
    omega

/-- No byte in front of the file is inside. -/
theorem not_inside_of_neg {r : CopyRange} (hneg : r.fileOff < 0) (hpos : 0 < r.len) :
    ¬ r.Inside := by
  intro hinside
  obtain ⟨⟨hstart, _⟩, hblock, _⟩ := hinside 0 hpos
  have hsplit := Int.mul_tdiv_add_tmod r.fileOff blockSize
  have hprod : 0 ≤ (blockSize : Int) * r.iBlock := mul_nonneg (by decide) hblock
  unfold CopyRange.start at hstart
  unfold CopyRange.iBlock at hprod
  omega

variable {o n k : Nat}

theorem pieceEnd_le (hmax : o + k < 2 ^ 31) : o + (k + pieceSize o n k) ≤ 2 ^ 31 := by
  unfold pieceSize pieceEnd
  simp only [blockSize]
  omega

/-- From an offset that is not negative a round ends where it should, up to `2 ^ 31`. -/
theorem fileEnd_of_lt (hk : k < n) (hmax : o + k < 2 ^ 31) (hsum : o + n < 2 ^ 32) :
    fileEnd o n (o + k : Nat) = toInt (o + (k + pieceSize o n k) : Nat) := by
  have hend : ((((o + k : Nat) : Int).tdiv blockSize + 1) * blockSize : Int) =
      (((o + k) / blockSize + 1) * blockSize : Nat) := by
    rw [← Int.ofNat_tdiv]
    push_cast
    rfl
  rw [fileEnd_eq, hend, ← pieceEnd_eq hk, pieceEnd]
  split
  · rename_i hlt
    simp only [blockSize] at hlt ⊢
    rw [min_eq_right (by omega), Nat.cast_add]
  · rename_i hge
    simp only [blockSize] at hge ⊢
    rw [min_eq_left (by omega)]

theorem copySize_of_lt (hk : k < n) (hmax : o + k < 2 ^ 31) (hsum : o + n < 2 ^ 32) :
    copySize o n (o + k : Nat) = pieceSize o n k := by
  have hfits := pieceSize_fits (o := o) (n := n) (k := k)
  have hend := toInt_spec (o + (k + pieceSize o n k) : Nat)
  rw [copySize, fileEnd_of_lt hk hmax hsum]
  generalize toInt (o + (k + pieceSize o n k) : Nat) = fileEnd at hend
  have hdiff := toInt_spec (fileEnd - (o + k : Nat))
  generalize toInt (fileEnd - (o + k : Nat)) = copySize at hdiff
  simp only [blockSize] at hfits
  omega

end Round

/-! ## The rounds of a transfer -/

section Rounds

variable {offset : Int} {size : Nat} {o n k fuel : Nat} {rs : List CopyRange}

/-- The first range of a loop that has something to do. -/
theorem rounds_head {buffOff fileOff : Int} (hlt : asUint buffOff < size)
    (h : rounds offset size fuel buffOff fileOff = some rs) :
    { fileOff := fileOff, len := asUint (copySize offset size fileOff) } ∈ rs := by
  cases fuel with
  | zero => cases h
  | succ fuel =>
    rw [rounds, if_pos hlt, Option.map_eq_some_iff] at h
    obtain ⟨rest, _, rfl⟩ := h
    exact List.mem_cons_self

/-- The loop at byte `k` of a transfer. -/
theorem rounds_of_lt (hk : k < n) (hmax : o + k < 2 ^ 31) (hsum : o + n < 2 ^ 32) :
    rounds o n (fuel + 1) (toInt k) (toInt (o + k : Nat)) =
      (rounds o n fuel (toInt (k + pieceSize o n k : Nat))
        (toInt (o + (k + pieceSize o n k) : Nat))).map
        ({ fileOff := (o + k : Nat), len := pieceSize o n k } :: ·) := by
  have hle := pieceSize_le (o := o) hk
  rw [toInt_natCast (show k < 2 ^ 31 by omega), toInt_natCast hmax, rounds,
    asUint_natCast (by omega), if_pos hk, copySize_of_lt hk hmax hsum, fileEnd_of_lt hk hmax hsum,
    asUint_natCast (by omega), ← Nat.cast_add]

theorem piece_inside (hmax : o + k < 2 ^ 31) :
    CopyRange.Inside { fileOff := (o + k : Nat), len := pieceSize o n k } := by
  intro j hj
  have hfits := pieceSize_fits (o := o) (n := n) (k := k)
  have hstart : (((o + k : Nat) : Int).tmod blockSize) = ((o + k) % blockSize : Nat) :=
    (Int.ofNat_tmod _ _).symm
  have hblock : (((o + k : Nat) : Int).tdiv blockSize) = ((o + k) / blockSize : Nat) :=
    (Int.ofNat_tdiv _ _).symm
  have hmaxBlocks : maxFileBlocks = 1049610 := rfl
  unfold CopyRange.start CopyRange.iBlock
  dsimp only at hj ⊢
  rw [hstart, hblock, hmaxBlocks]
  simp only [blockSize] at hfits ⊢
  omega

/-- A transfer that ends at `2 ^ 31` at the latest ends, and copies inside. -/
theorem rounds_inside (hmax : o + n ≤ 2 ^ 31) (hk : k ≤ n) (hfuel : n - k < fuel) :
    ∃ rs, rounds o n fuel (toInt k) (toInt (o + k : Nat)) = some rs ∧ ∀ r ∈ rs, r.Inside := by
  induction fuel generalizing k with
  | zero => omega
  | succ fuel ih =>
    rcases Nat.lt_or_ge k n with hlt | hge
    · have hle := pieceSize_le (o := o) hlt
      have hpos := pieceSize_pos (o := o) hlt
      obtain ⟨rs, hrs, hinside⟩ := ih hle (by omega)
      rw [rounds_of_lt hlt (by omega) (by omega), hrs]
      refine ⟨_, rfl, ?_⟩
      intro r hr
      rcases List.mem_cons.mp hr with rfl | hr
      · exact piece_inside (by omega)
      · exact hinside r hr
    · have hbuff : asUint (toInt k) = k := by
        have hcast := asUint_cast (toInt k)
        rw [(toInt_spec k).2.2] at hcast
        omega
      rw [rounds, hbuff, if_neg (by omega)]
      exact ⟨[], rfl, fun r hr => absurd hr List.not_mem_nil⟩

/-- A transfer that goes on behind `2 ^ 31` comes to the offset `- 2 ^ 31`. -/
theorem rounds_outside (hover : 2 ^ 31 < o + n) (hsum : o + n < 2 ^ 32) (hk : o + k ≤ 2 ^ 31)
    (h : rounds o n fuel (toInt k) (toInt (o + k : Nat)) = some rs) : ∃ r ∈ rs, ¬ r.Inside := by
  induction fuel generalizing k rs with
  | zero => cases h
  | succ fuel ih =>
    rcases Nat.lt_or_ge (o + k) (2 ^ 31) with hlt | hge
    · rw [rounds_of_lt (by omega) hlt hsum, Option.map_eq_some_iff] at h
      obtain ⟨rest, hrest, rfl⟩ := h
      obtain ⟨r, hr, hout⟩ := ih (pieceEnd_le hlt) hrest
      exact ⟨r, List.mem_cons_of_mem _ hr, hout⟩
    · have hwrap : toInt (o + k : Nat) = -2 ^ 31 := by
        have hspec := toInt_spec (o + k : Nat)
        generalize toInt (o + k : Nat) = fileOff at hspec
        omega
      have hbuff : asUint (toInt k) < n := by
        have hcast := asUint_cast (toInt k)
        rw [(toInt_spec k).2.2] at hcast
        omega
      rw [hwrap] at h
      have hneg : (-2 ^ 31 : Int) < 0 := by decide
      exact ⟨_, rounds_head hbuff h, not_inside_of_neg hneg (copyLen_pos (by omega))⟩

/-- A transfer whose end wraps around copies more than a block at once. -/
theorem round_outside (ho : o < 2 ^ 31) (hn : n < 2 ^ 32) (hsum : 2 ^ 32 ≤ o + n) :
    ¬ CopyRange.Inside { fileOff := o, len := asUint (copySize o n o) } := by
  have hend : fileEnd o n o = toInt (o + n) := by
    rw [fileEnd_eq, ← Int.ofNat_tdiv, if_pos]
    simp only [blockSize]
    omega
  have hlen : asUint (copySize o n o) = n := by
    have hcast := copyLen_cast o n o
    have hspec := toInt_spec (o + n)
    rw [hend] at hcast
    generalize toInt (o + n) = fileEnd at hcast hspec
    omega
  intro hinside
  obtain ⟨⟨_, hlast⟩, _⟩ := hinside blockSize (by
    rw [hlen]
    simp only [blockSize]
    omega)
  have hstart : 0 ≤ (o : Int).tmod blockSize := Int.tmod_nonneg _ (by omega)
  unfold CopyRange.start at hlast
  dsimp only at hlast
  omega

theorem rounds_zero (ho : o < 2 ^ 31) :
    rounds o n fuel 0 o = rounds o n fuel (toInt (0 : Nat)) (toInt (o + 0 : Nat)) := by
  rw [toInt_natCast (show 0 < 2 ^ 31 by decide), toInt_natCast (show o + 0 < 2 ^ 31 from ho)]
  rfl

/-- The offsets and sizes whose transfers are inside. -/
def FitsFile (offset : Int) (size : Nat) : Prop :=
  size = 0 ∨ 0 ≤ offset ∧ offset + size ≤ 2 ^ 31

instance (offset : Int) (size : Nat) : Decidable (FitsFile offset size) :=
  inferInstanceAs (Decidable (_ ∨ _))

theorem rounds_inside_iff (hoffset : MachineInt.Representable 32 offset) (hsize : size < 2 ^ 32) :
    (∃ fuel rs, rounds offset size fuel 0 offset = some rs ∧ ∀ r ∈ rs, r.Inside) ↔
      FitsFile offset size := by
  unfold MachineInt.Representable at hoffset
  constructor
  · rintro ⟨fuel, rs, hrs, hinside⟩
    by_contra hfits
    unfold FitsFile at hfits
    have hzero : asUint 0 < size := by
      have hcast := asUint_cast 0
      omega
    have hhead := hinside _ (rounds_head hzero hrs)
    rcases lt_or_ge offset 0 with hneg | hpos
    · exact not_inside_of_neg hneg (copyLen_pos (by omega)) hhead
    · obtain ⟨o, rfl⟩ := Int.eq_ofNat_of_zero_le hpos
      rcases Nat.lt_or_ge (o + size) (2 ^ 32) with hsum | hsum
      · rw [rounds_zero (by omega)] at hrs
        obtain ⟨r, hr, hout⟩ := rounds_outside (by omega) hsum (by omega) hrs
        exact hout (hinside r hr)
      · exact round_outside (by omega) hsize hsum hhead
  · rintro (rfl | ⟨hpos, hmax⟩)
    · exact ⟨1, [], rfl, fun r hr => absurd hr List.not_mem_nil⟩
    · obtain ⟨o, rfl⟩ := Int.eq_ofNat_of_zero_le hpos
      refine ⟨size + 1, ?_⟩
      rw [rounds_zero (by omega)]
      exact rounds_inside (by omega) (Nat.zero_le _) (by omega)

end Rounds

/-! ## The calls -/

section Calls

variable (find : Inode → Int → Prog (Nat × Inode)) (fuel : Nat) (file : OpenFile)

/-- `write` of an open file, with its log. -/
def writeLogged (buff : List UInt8) : Prog (Option (OpenFile × List Copy)) := do
  let r ← logLoop find (writes buff) file.offset buff.length fuel file.inode () 0 file.offset []
  return r.map fun (inode, _, fileOff, log) =>
    ({ file with inode := inode, offset := fileOff }, log)

/-- `read` of an open file, with its log. -/
def readLogged (size : Nat) : Prog (Option ((List UInt8 × OpenFile) × List Copy)) := do
  let r ← logLoop find reads file.offset size fuel file.inode [] 0 file.offset []
  return r.map fun (inode, out, fileOff, log) =>
    ((out, { file with inode := inode, offset := fileOff }), log)

variable (unread : List (Option Block)) (s : BlockStore)

/-- Without the log this is `write`. -/
theorem writeWith_logged (buff : List UInt8) :
    (writeWith find fuel file buff).flat unread s =
      ((writeLogged find fuel file buff).flat unread s).map (Option.map Prod.fst) id := by
  unfold writeWith writeLogged
  rw [flat_bind, flat_bind, writeLoop_logged find [], flat_pure, flat_pure]
  simp only [Prod.map, Option.map_map, id]
  rfl

/-- Without the log this is `read`. -/
theorem readWith_logged (size : Nat) :
    (readWith find fuel file size).flat unread s =
      ((readLogged find fuel file size).flat unread s).map (Option.map Prod.fst) id := by
  unfold readWith readLogged
  rw [flat_bind, flat_bind, readLoop_logged find [], flat_pure, flat_pure]
  simp only [Prod.map, Option.map_map, id]
  rfl

/-- The call ends, and it copies nothing but bytes of blocks of the file. -/
def StaysInside {β : Type} (call : Nat → Prog (Option (β × List Copy))) : Prop :=
  ∃ fuel r, ((call fuel).flat unread s).1 = some r ∧ ∀ c ∈ r.2, c.toCopyRange.Inside

variable {find file unread s} {α β : Type}

/-- Whether a call stays inside is decided by its rounds. -/
theorem staysInside_iff {d : Transfer α} {a : α} {offset : Int} {size : Nat}
    {f : Inode × α × Int × List Copy → β × List Copy} (hf : ∀ r, (f r).2 = r.2.2.2)
    {inode : Inode} (hoffset : MachineInt.Representable 32 offset) (hsize : size < 2 ^ 32) :
    StaysInside unread s (fun fuel => do
      let r ← logLoop find d offset size fuel inode a 0 offset []
      return r.map f) ↔ FitsFile offset size := by
  have hrounds : ∀ fuel, ((logLoop find d offset size fuel inode a 0 offset []).flat
      unread s).1.map (fun r => r.2.2.2.map Copy.toCopyRange) =
      (rounds offset size fuel 0 offset).map (([] : List Copy).map Copy.toCopyRange ++ ·) :=
    fun fuel => logLoop_rounds find d [] unread s
  rw [← rounds_inside_iff hoffset hsize]
  unfold StaysInside
  constructor
  · rintro ⟨fuel, r, hr, hinside⟩
    rw [flat_bind, flat_pure, Option.map_eq_some_iff] at hr
    obtain ⟨res, hres, rfl⟩ := hr
    have hlog := hrounds fuel
    rw [hres] at hlog
    obtain ⟨rs, hrs, heq⟩ := Option.map_eq_some_iff.mp hlog.symm
    refine ⟨fuel, rs, hrs, fun r hr => ?_⟩
    rw [List.map_nil, List.nil_append] at heq
    rw [heq] at hr
    obtain ⟨c, hc, rfl⟩ := List.mem_map.mp hr
    exact hinside c (by rwa [hf])
  · rintro ⟨fuel, rs, hrs, hinside⟩
    have hlog := hrounds fuel
    rw [hrs, Option.map_some, List.map_nil, List.nil_append, Option.map_eq_some_iff] at hlog
    obtain ⟨res, hres, heq⟩ := hlog
    refine ⟨fuel, f res, ?_, fun c hc => ?_⟩
    · rw [flat_bind, hres]
      rfl
    · rw [hf] at hc
      exact hinside _ (heq ▸ List.mem_map_of_mem hc)

theorem writeLogged_stays_iff {offset : Int} (hoffset : MachineInt.Representable 32 offset)
    {buff : List UInt8} (hsize : buff.length < 2 ^ 32) :
    StaysInside unread s (fun fuel => writeLogged find fuel (file.seek offset) buff) ↔
      FitsFile offset buff.length :=
  staysInside_iff (d := writes buff)
    (f := fun r => ({ file with inode := r.1, offset := r.2.2.1 }, r.2.2.2))
    (fun _ => rfl) hoffset hsize

theorem readLogged_stays_iff {offset : Int} (hoffset : MachineInt.Representable 32 offset)
    {size : Nat} (hsize : size < 2 ^ 32) :
    StaysInside unread s (fun fuel => readLogged find fuel (file.seek offset) size) ↔
      FitsFile offset size :=
  staysInside_iff (d := reads)
    (f := fun r => ((r.2.1, { file with inode := r.1, offset := r.2.2.1 }), r.2.2.2))
    (fun _ => rfl) hoffset hsize

/-- After `seek`, `write` and `read` stay inside exactly when there is nothing to
transfer, or the offset is not negative and the transfer ends at `2 ^ 31` at the
latest. -/
theorem transfers_inside_iff (find : Inode → Int → Prog (Nat × Inode)) (file : OpenFile)
    {offset : Int} (hoffset : MachineInt.Representable 32 offset) {size : Nat}
    (hsize : size < 2 ^ 32) {buff : List UInt8} (hbuff : buff.length = size)
    (unread : List (Option Block)) (s : BlockStore) :
    (StaysInside unread s (fun fuel => writeLogged find fuel (file.seek offset) buff) ↔
      FitsFile offset size) ∧
    (StaysInside unread s (fun fuel => readLogged find fuel (file.seek offset) size) ↔
      FitsFile offset size) := by
  subst hbuff
  exact ⟨writeLogged_stays_iff hoffset hsize, readLogged_stays_iff hoffset hsize⟩

/-- Four bytes across the end of the second block. -/
theorem transfers_inside_second :
    FitsFile 8190 4 ∧
    StaysInside [] (fun _ => zeroBlock) (fun fuel => writeLogged
        (sourceLookup (setupSuperBlock 1048576) 0) fuel (OpenFile.blank.seek 8190) [1, 2, 3, 4]) ∧
    StaysInside [] (fun _ => zeroBlock) (fun fuel => readLogged
        (sourceLookup (setupSuperBlock 1048576) 0) fuel (OpenFile.blank.seek 8190) 4) := by
  have hfits : FitsFile 8190 4 := by decide
  obtain ⟨hwrite, hread⟩ := @transfers_inside_iff (sourceLookup (setupSuperBlock 1048576) 0)
    OpenFile.blank 8190 (by decide) 4 (by decide) [1, 2, 3, 4] rfl [] fun _ => zeroBlock
  exact ⟨hfits, hwrite.mpr hfits, hread.mpr hfits⟩

/-- A byte that is written at the offset `-1` goes in front of the page of block `0`. -/
theorem write_before_page :
    ¬ StaysInside [] (fun _ => zeroBlock) (fun fuel => writeLogged
        (sourceLookup (setupSuperBlock 1048576) 0) fuel (OpenFile.blank.seek (-1)) [7]) ∧
      ¬ StaysInside [] (fun _ => zeroBlock) (fun fuel => readLogged
        (sourceLookup (setupSuperBlock 1048576) 0) fuel (OpenFile.blank.seek (-1)) 1) := by
  have hoffset : MachineInt.Representable 32 (-1) := by decide
  constructor
  · intro hinside
    have hfits := (writeLogged_stays_iff hoffset (by decide)).mp hinside
    revert hfits
    decide
  · intro hinside
    have hfits := (readLogged_stays_iff hoffset (by decide)).mp hinside
    revert hfits
    decide

end Calls

end MipsOs.Fs
