import Mathlib

/-!
# The disk and its partitions

`block_read` and `block_write` of `fs/fs.c` over the SD card.  The card is
the byte array behind `sd_card_read` and `sd_card_write`; these take a
32-bit byte offset, so the offset of a block is computed modulo `2 ^ 32`.

Of a partition table entry the model keeps the two fields that the block
layer reads, `start_lba` and `sector_num`.  Block numbers are the bit
patterns of the source's `int block_id`.

`Separate` says that two blocks share no byte of the card.  Two different
blocks of one partition below block `2 ^ 20` are separate
(`separate_of_lt`); the blocks `b` and `b + 2 ^ 20` are the same block
(`blockOffset_add_wrap`).  `blocks_separate_iff` says for which partition tables
all blocks of the disk are separate and inside of their partitions.
-/

namespace MipsOs.Fs

/-- `SECTOR_SIZE` -/
def sectorSize : Nat := 512

/-- `BLOCK_SIZE` -/
def blockSize : Nat := 4096

/-- The content of one block, or of one kernel page. -/
abbrev Block := Fin 4096 → UInt8

/-- The bytes of the SD card, by byte offset. -/
abbrev Card := Nat → UInt8

/-- `DPT_entry_t` -/
structure DptEntry where
  startLba : Nat
  sectorNum : Nat
  deriving DecidableEq, Repr

-- Partitions are indexed by `Fin 4`.
instance neZeroPartitions : NeZero 4 := ⟨by decide⟩

/-- `disk_partition_table` -/
abbrev PartitionTable := Fin 4 → DptEntry

/-- The number of blocks of a partition. -/
def partitionBlocks (table : PartitionTable) (part : Fin 4) : Nat :=
  (table part).sectorNum / (blockSize / sectorSize)

/-- The byte offset of a block on the card. -/
def blockOffset (table : PartitionTable) (part : Fin 4) (blockId : Nat) : Nat :=
  ((table part).startLba * sectorSize + blockId * blockSize) % 2 ^ 32

/-- `block_read` -/
def blockRead (table : PartitionTable) (card : Card) (part : Fin 4) (blockId : Nat) :
    Block :=
  fun i => card (blockOffset table part blockId + i)

/-- `block_write` -/
def blockWrite (table : PartitionTable) (card : Card) (part : Fin 4) (blockId : Nat)
    (src : Block) : Card :=
  fun a =>
    if h : blockOffset table part blockId ≤ a ∧
        a < blockOffset table part blockId + 4096 then
      src ⟨a - blockOffset table part blockId, by omega⟩
    else
      card a

/-! ## Blocks that share no byte -/

/-- Two blocks occupy disjoint byte ranges of the card. -/
def Separate (table : PartitionTable) (p : Fin 4) (b : Nat) (q : Fin 4) (c : Nat) :
    Prop :=
  blockOffset table p b + blockSize ≤ blockOffset table q c ∨
    blockOffset table q c + blockSize ≤ blockOffset table p b

theorem Separate.symm {table : PartitionTable} {p q : Fin 4} {b c : Nat}
    (h : Separate table p b q c) : Separate table q c p b :=
  Or.symm h

/-- A block reads back what was written to it. -/
@[simp] theorem blockRead_blockWrite_same (table : PartitionTable) (card : Card)
    (part : Fin 4) (b : Nat) (src : Block) :
    blockRead table (blockWrite table card part b src) part b = src := by
  funext i
  simp only [blockRead, blockWrite]
  rw [dif_pos ⟨by omega, by omega⟩]
  congr 1
  apply Fin.ext
  simp

/-- A write leaves every separate block alone. -/
theorem blockRead_blockWrite_of_separate {table : PartitionTable} {p q : Fin 4}
    {b c : Nat} (h : Separate table p b q c) (card : Card) (src : Block) :
    blockRead table (blockWrite table card p b src) q c = blockRead table card q c := by
  funext i
  have hi : (i : Nat) < blockSize := i.isLt
  simp only [blockRead, blockWrite]
  rw [dif_neg]
  simp only [Separate, blockSize] at h hi ⊢
  omega

/-- Different blocks of one partition are separate as long as a 32-bit byte
offset can tell them apart. -/
theorem separate_of_lt (table : PartitionTable) (p : Fin 4) {b c : Nat}
    (hb : b < 2 ^ 20) (hc : c < 2 ^ 20) (hne : b ≠ c) : Separate table p b p c := by
  simp only [Separate, blockOffset, sectorSize, blockSize]
  omega

/-- Different blocks of partitions that lie apart within the first `2 ^ 32`
bytes of the card are separate. -/
theorem separate_of_apart {table : PartitionTable} {p q : Fin 4} {b c : Nat}
    (hb : b < partitionBlocks table p) (hc : c < partitionBlocks table q)
    (hp : (table p).startLba + (table p).sectorNum ≤ 2 ^ 23)
    (hq : (table q).startLba + (table q).sectorNum ≤ 2 ^ 23)
    (hapart : p ≠ q → (table p).startLba + (table p).sectorNum ≤ (table q).startLba ∨
      (table q).startLba + (table q).sectorNum ≤ (table p).startLba)
    (hne : ¬ (q = p ∧ c = b)) : Separate table p b q c := by
  simp only [partitionBlocks, blockSize, sectorSize] at hb hc
  rcases eq_or_ne p q with rfl | hpq
  · refine separate_of_lt table p (by omega) (by omega) fun h => hne ⟨rfl, h.symm⟩
  · have := hapart hpq
    simp only [Separate, blockOffset, sectorSize, blockSize]
    omega

/-- The byte offset wraps after `2 ^ 20` blocks. -/
theorem blockOffset_add_wrap (table : PartitionTable) (p : Fin 4) (b : Nat) :
    blockOffset table p (b + 2 ^ 20) = blockOffset table p b := by
  simp only [blockOffset, sectorSize, blockSize]
  omega

theorem blockRead_add_wrap (table : PartitionTable) (card : Card) (p : Fin 4) (b : Nat) :
    blockRead table card p (b + 2 ^ 20) = blockRead table card p b := by
  funext i
  simp only [blockRead, blockOffset_add_wrap]

/-! ## Partition tables -/

/-- The sectors of a partition. -/
def sectors (table : PartitionTable) (p : Fin 4) : Set Nat :=
  Set.Ico (table p).startLba ((table p).startLba + (table p).sectorNum)

/-- A partition table of 32-bit fields whose partitions share no sector. -/
structure PartitionTable.Valid (table : PartitionTable) : Prop where
  start_lt : ∀ p, (table p).startLba < 2 ^ 32
  num_lt : ∀ p, (table p).sectorNum < 2 ^ 32
  apart : ∀ p q, p ≠ q → Disjoint (sectors table p) (sectors table q)

/-- The bytes of the block are bytes of its partition. -/
def Inside (table : PartitionTable) (p : Fin 4) (b : Nat) : Prop :=
  (table p).startLba * sectorSize ≤ blockOffset table p b ∧
    blockOffset table p b + blockSize ≤
      ((table p).startLba + (table p).sectorNum) * sectorSize

/-- Different blocks share no byte, and every block is inside of its partition. -/
def BlocksSeparate (table : PartitionTable) : Prop :=
  (∀ p b q c, b < partitionBlocks table p → c < partitionBlocks table q →
      ¬ (q = p ∧ c = b) → Separate table p b q c) ∧
    ∀ p b, b < partitionBlocks table p → Inside table p b

/-- Every block starts within the first `2 ^ 32` bytes of the card. -/
def FitsOffset (table : PartitionTable) : Prop :=
  ∀ p, 0 < partitionBlocks table p →
    (table p).startLba * sectorSize + (partitionBlocks table p - 1) * blockSize < 2 ^ 32

section Tables

variable {table : PartitionTable} {p q : Fin 4} {b c : Nat}

/-- Below `2 ^ 32` the byte offset is what it should be. -/
theorem FitsOffset.offset_eq (h : FitsOffset table) (hb : b < partitionBlocks table p) :
    blockOffset table p b = (table p).startLba * sectorSize + b * blockSize := by
  have hlast := h p (by omega)
  simp only [blockOffset, sectorSize, blockSize] at hlast ⊢
  omega

theorem FitsOffset.inside (h : FitsOffset table) (hb : b < partitionBlocks table p) :
    Inside table p b := by
  have hoffset := h.offset_eq hb
  simp only [Inside, hoffset]
  simp only [partitionBlocks, sectorSize, blockSize] at hb ⊢
  omega

/-- Blocks of two partitions that share no sector. -/
theorem apart_le (h : table.Valid) (hpq : p ≠ q) (hp : 0 < (table p).sectorNum)
    (hq : 0 < (table q).sectorNum) :
    (table p).startLba + (table p).sectorNum ≤ (table q).startLba ∨
      (table q).startLba + (table q).sectorNum ≤ (table p).startLba := by
  by_contra hmeet
  obtain ⟨hleft, hright⟩ := not_or.mp hmeet
  have hdisjoint := Set.disjoint_left.mp (h.apart p q hpq)
  rcases le_total (table p).startLba (table q).startLba with hle | hle
  · exact hdisjoint (a := (table q).startLba) ⟨hle, by omega⟩ ⟨le_rfl, by omega⟩
  · exact hdisjoint (a := (table p).startLba) ⟨le_rfl, by omega⟩ ⟨hle, by omega⟩

theorem FitsOffset.separate (h : FitsOffset table) (hvalid : table.Valid)
    (hb : b < partitionBlocks table p) (hc : c < partitionBlocks table q)
    (hne : ¬ (q = p ∧ c = b)) : Separate table p b q c := by
  have hoffset := h.offset_eq hb
  have hoffset' := h.offset_eq hc
  simp only [Separate, hoffset, hoffset']
  rcases eq_or_ne p q with rfl | hpq
  · have hbc : c ≠ b := fun heq => hne ⟨rfl, heq⟩
    simp only [blockSize]
    omega
  · simp only [partitionBlocks, sectorSize, blockSize] at hb hc ⊢
    have := apart_le hvalid hpq (by omega) (by omega)
    omega

/-- A block beyond `2 ^ 32` bytes whose offset wraps to one behind the start of the
partition has the offset of an earlier block. -/
theorem exists_same_offset {start b : Nat} (hover : 2 ^ 32 ≤ start * 512 + b * 4096)
    (hstart : start * 512 ≤ (start * 512 + b * 4096) % 2 ^ 32) :
    ∃ c < b, (start * 512 + c * 4096) % 2 ^ 32 = (start * 512 + b * 4096) % 2 ^ 32 := by
  have hdiv := Nat.div_add_mod (start * 512 + b * 4096) (2 ^ 32)
  have hperiods : 0 < (start * 512 + b * 4096) / 2 ^ 32 := Nat.div_pos hover (by decide)
  generalize (start * 512 + b * 4096) / 2 ^ 32 = periods at hdiv hperiods
  refine ⟨b - periods * 2 ^ 20, by omega, ?_⟩
  have hsplit : start * 512 + b * 4096 =
      start * 512 + (b - periods * 2 ^ 20) * 4096 + 2 ^ 32 * periods := by omega
  rw [hsplit, Nat.add_mul_mod_self_left]

/-- A block beyond `2 ^ 32` bytes is outside of its partition, or it is another
block of the partition. -/
theorem not_blocksSeparate (hb : b < partitionBlocks table p)
    (hover : 2 ^ 32 ≤ (table p).startLba * sectorSize + b * blockSize) :
    ¬ BlocksSeparate table := by
  rintro ⟨hseparate, hinside⟩
  obtain ⟨hstart, _⟩ := hinside p b hb
  obtain ⟨c, hc, hoffset⟩ := exists_same_offset hover hstart
  have hsame : blockOffset table p c = blockOffset table p b := hoffset
  have hmeet := hseparate p b p c hb (by omega) fun heq => hc.ne heq.2
  rw [Separate, hsame] at hmeet
  simp only [blockSize] at hmeet
  omega

/-- The blocks of a disk are separate and inside of their partitions exactly when
all of them start within the first `2 ^ 32` bytes. -/
theorem blocks_separate_iff (hvalid : table.Valid) :
    BlocksSeparate table ↔ FitsOffset table := by
  constructor
  · intro h p hp
    by_contra hover
    exact not_blocksSeparate (b := partitionBlocks table p - 1) (by omega)
      (not_lt.mp hover) h
  · intro h
    exact ⟨fun p b q c hb hc hne => h.separate hvalid hb hc hne, fun p b hb => h.inside hb⟩

/-- One partition with a single block. -/
def onePartition (start num : Nat) : PartitionTable :=
  fun p => if p = 0 then ⟨start, num⟩ else ⟨0, 0⟩

theorem onePartition_valid {start num : Nat} (hstart : start < 2 ^ 32) (hnum : num < 2 ^ 32) :
    (onePartition start num).Valid where
  start_lt p := by
    by_cases hp : p = 0
    · simpa [onePartition, hp] using hstart
    · simp [onePartition, hp]
  num_lt p := by
    by_cases hp : p = 0
    · simpa [onePartition, hp] using hnum
    · simp [onePartition, hp]
  apart p q hpq := by
    rw [Set.disjoint_left]
    by_cases hp : p = 0
    · have hq : q ≠ 0 := fun hq => hpq (hp.trans hq.symm)
      simp [sectors, onePartition, hq]
    · simp [sectors, onePartition, hp]

/-- A partition of 16 MiB that starts at 512 MiB. -/
theorem onePartition_separate : BlocksSeparate (onePartition 1048576 32768) :=
  (blocks_separate_iff (onePartition_valid (by decide) (by decide))).mpr (by
    intro p hp
    fin_cases p <;> simp [onePartition, partitionBlocks, sectorSize, blockSize] at hp ⊢)

/-- The first block of a partition that starts at 4 GiB is the boot sector. -/
theorem onePartition_over_boot :
    ¬ ∀ table : PartitionTable, table.Valid → BlocksSeparate table := by
  intro hall
  have hinside := (hall (onePartition (2 ^ 23) 8) (onePartition_valid (by decide) (by decide))).2
    0 0 (by decide)
  simp [Inside, onePartition, blockOffset, sectorSize] at hinside

end Tables

end MipsOs.Fs
