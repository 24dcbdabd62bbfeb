import MipsOs.Lib.Loop

/-!
# The image builder and the boot loader

`tools/createimage.c` copies the segments of a boot block and of the kernel into
an image, fills each file up to a sector boundary, and writes the number of
kernel sectors and a partition table into the first sector.
`arch/mips/boot/bootblock.S` reads that number back, as a signed half word, and
loads that many sectors from the second one on.

Files are lists of bytes.  A short read or a bad segment number ends the program
and has no image.  Sizes are natural numbers: the images below stay far from the
end of an `int`.

`image_loads` is the result: the sectors that the boot loader reads are the
segments of the kernel.
-/

namespace MipsOs.Boot

open MipsOs.Lib

/-- `SECTOR_SIZE` -/
def sectorSize : Nat := 0x200

/-- `OS_SIZE_LOC` -/
def osSizeLoc : Nat := 0x1fe

/-- `DPT_LOC` -/
def dptLoc : Nat := 0x1be

/-! ## Files -/

/-- `fread` of `n` bytes from a position of a file. -/
def fread (file : List UInt8) (pos n : Nat) : List UInt8 := (file.drop pos).take n

/-- A file that is written, and the position in it. -/
structure OutFile where
  content : List UInt8
  pos : Nat

namespace OutFile

/-- `fseek` to a position from the start. -/
def fseek (f : OutFile) (pos : Nat) : OutFile := { f with pos := pos }

/-- `fwrite`, which fills a gap behind the end of the file with zeros. -/
def fwrite (f : OutFile) (bytes : List UInt8) : OutFile where
  content := f.content.take f.pos ++ List.replicate (f.pos - f.content.length) 0 ++ bytes ++
    f.content.drop (f.pos + bytes.length)
  pos := f.pos + bytes.length

end OutFile

/-- The number at byte `off` of a structure, little endian, of `n` bytes. -/
def field (raw : List UInt8) (off n : Nat) : Nat :=
  ((raw.drop off).take n).foldr (fun b v => b.toNat + 256 * v) 0

/-- The fields of `Elf64_Ehdr` that are used. -/
structure Ehdr where
  phoff : Nat
  phentsize : Nat
  phnum : Nat
  deriving DecidableEq

/-- The fields of `Elf64_Phdr` that are used. -/
structure Phdr where
  offset : Nat
  filesz : Nat
  memsz : Nat
  deriving DecidableEq

/-- `sizeof(Elf64_Ehdr)` -/
def sizeofEhdr : Nat := 64

/-- `sizeof(Elf64_Phdr)` -/
def sizeofPhdr : Nat := 56

/-- `read_ehdr`.  `none` when the file is too short. -/
def readEhdr (file : List UInt8) : Option Ehdr :=
  let raw := fread file 0 sizeofEhdr
  if raw.length ≠ sizeofEhdr then none
  else some { phoff := field raw 32 8, phentsize := field raw 54 2, phnum := field raw 56 2 }

/-- `read_phdr` of the header number `ph`. -/
def readPhdr (file : List UInt8) (ph : Nat) (ehdr : Ehdr) : Option Phdr :=
  if ph ≥ ehdr.phnum then none
  else
    let raw := fread file (ehdr.phoff + ph * ehdr.phentsize) sizeofPhdr
    if raw.length ≠ sizeofPhdr then none
    else some { offset := field raw 8 8, filesz := field raw 32 8, memsz := field raw 40 8 }

/-! ## The image builder -/

/-- The image file, and `nbytes`. -/
structure Image where
  img : OutFile
  nbytes : Nat

/-- `write_segment`.  The buffer has `memsz` zeros, and `filesz` bytes of the
file are read into it. -/
def writeSegment (phdr : Phdr) (file : List UInt8) (s : Image) : Option Image :=
  let img := s.img.fseek s.nbytes
  let data := fread file phdr.offset phdr.filesz
  if data.length ≠ phdr.filesz then none
  else
    let buff := data ++ (List.replicate phdr.memsz 0).drop data.length
    some { img := img.fwrite (buff.take phdr.memsz), nbytes := s.nbytes + phdr.memsz }

/-- One file of `create_image`. -/
def addFile (s : Image) (file : List UInt8) : Option Image := do
  let ehdr ← readEhdr file
  let s ← (List.range ehdr.phnum).foldlM (fun s ph => do
    let phdr ← readPhdr file ph ehdr
    writeSegment phdr file s) s
  let padding := sectorSize - s.nbytes % sectorSize
  let img := s.img.fwrite (List.replicate padding 0)
  return { img := img.fseek (s.nbytes + padding), nbytes := s.nbytes + padding }

/-- The two bytes of `os_size`, which is a `uint16_t`. -/
def osSizeBytes (nbytes : Nat) : List UInt8 :=
  [UInt8.ofNat (nbytes / 0x200 % 2 ^ 16), UInt8.ofNat (nbytes / 0x200 % 2 ^ 16 / 256)]

/-- `write_os_size` -/
def writeOsSize (nbytes : Nat) (img : OutFile) : OutFile :=
  (img.fseek osSizeLoc).fwrite (osSizeBytes nbytes)

/-- The bytes of `dpt`: one partition, and three empty entries. -/
def dptBytes : List UInt8 :=
  [0x80, 0xfe, 0xff, 0xff, 0x1a, 0xfe, 0xff, 0xff, 0, 0x10, 0, 0, 0, 0, 1, 0] ++
    List.replicate 48 0

/-- `write_dpt` -/
def writeDpt (img : OutFile) : OutFile := (img.fseek dptLoc).fwrite dptBytes

/-- The image before the two patches. -/
def unpatched (files : List (List UInt8)) : Option Image :=
  files.foldlM addFile { img := { content := [], pos := 0 }, nbytes := 0 }

/-- `create_image`: the bytes of the image file. -/
def createImage (files : List (List UInt8)) : Option (List UInt8) := do
  let s ← unpatched files
  return (writeDpt (writeOsSize (s.nbytes - sectorSize) s.img)).content

/-! ## The boot loader -/

/-- `lh $a2, ($a2)` at `main + OS_SZ_OFS`, with the first sector at `main`. -/
def osSize (card : List UInt8) : Int :=
  Int.bmod (field card osSizeLoc 2) (2 ^ 16)

/-- `KERNEL_OFS` -/
def kernelOfs : Nat := 0x200

/-- The size that `read_sd_card` is called with. -/
def readSize (card : List UInt8) : Int := osSize card * 0x200

/-- The bytes that arrive at the address of the kernel. -/
def loadedKernel (card : List UInt8) : List UInt8 := fread card kernelOfs (readSize card).toNat

/-! ## Writing -/

section Write

variable {f : OutFile} {bytes : List UInt8}

/-- A write at the end appends. -/
theorem OutFile.fwrite_end (hpos : f.pos = f.content.length) :
    f.fwrite bytes = { content := f.content ++ bytes, pos := f.pos + bytes.length } := by
  have hdrop : f.content.drop (f.pos + bytes.length) = [] :=
    List.drop_eq_nil_of_le (by omega)
  unfold fwrite
  rw [hdrop, hpos, Nat.sub_self, List.take_length, List.replicate_zero, List.append_nil,
    List.append_nil]

/-- A write inside of the file changes nothing behind it. -/
theorem OutFile.fwrite_inside (hin : f.pos + bytes.length ≤ f.content.length) :
    (f.fwrite bytes).content.drop f.pos = bytes ++ f.content.drop (f.pos + bytes.length) ∧
      (f.fwrite bytes).content.length = f.content.length := by
  have hgap : f.pos - f.content.length = 0 := by omega
  have htake : (f.content.take f.pos).length = f.pos := by
    rw [List.length_take]
    omega
  unfold fwrite
  rw [hgap, List.replicate_zero, List.append_nil]
  constructor
  · rw [List.append_assoc, List.drop_append_of_le_length htake.ge,
      List.drop_eq_nil_of_le htake.le, List.nil_append]
  · rw [List.length_append, List.length_append, htake, List.length_drop]
    omega

end Write

/-! ## Executables -/

/-- A well-formed ELF file: the headers can be read, and so can the segments,
which are not larger in the file than in memory.  The program headers have their
standard size, so that `ph * e_phentsize` is an `int`. -/
structure Executable where
  bytes : List UInt8
  ehdr : Ehdr
  phdr : Nat → Phdr
  readEhdr_eq : readEhdr bytes = some ehdr
  phentsize_eq : ehdr.phentsize = sizeofPhdr
  readPhdr_eq : ∀ ph < ehdr.phnum, readPhdr bytes ph ehdr = some (phdr ph)
  readable : ∀ ph < ehdr.phnum,
    (fread bytes (phdr ph).offset (phdr ph).filesz).length = (phdr ph).filesz
  filesz_le : ∀ ph < ehdr.phnum, (phdr ph).filesz ≤ (phdr ph).memsz

namespace Executable

variable (e : Executable)

/-- A segment in memory: its bytes in the file, and zeros. -/
def segment (ph : Nat) : List UInt8 :=
  fread e.bytes (e.phdr ph).offset (e.phdr ph).filesz ++
    List.replicate ((e.phdr ph).memsz - (e.phdr ph).filesz) 0

/-- The segments in order. -/
def segments : List UInt8 := (List.range e.ehdr.phnum).flatMap e.segment

/-- The zeros up to the end of a sector. -/
def padding : List UInt8 := List.replicate (sectorSize - e.segments.length % sectorSize) 0

/-- The segments and the zeros behind them. -/
def sectors : List UInt8 := e.segments ++ e.padding

theorem length_segment {ph : Nat} (hph : ph < e.ehdr.phnum) :
    (e.segment ph).length = (e.phdr ph).memsz := by
  have hle := e.filesz_le ph hph
  rw [segment, List.length_append, List.length_replicate, e.readable ph hph]
  omega

/-- Every file fills its last sector. -/
theorem dvd_length_sectors : sectorSize ∣ e.sectors.length := by
  rw [sectors, padding, List.length_append, List.length_replicate, sectorSize]
  omega

end Executable

/-! ## What the image builder writes -/

section Build

variable {s : Image} {e : Executable}

/-- The image is written from the front. -/
structure Image.AtEnd (s : Image) : Prop where
  pos_eq : s.img.pos = s.img.content.length
  nbytes_eq : s.nbytes = s.img.content.length

theorem writeSegment_appends (h : s.AtEnd) {ph : Nat} (hph : ph < e.ehdr.phnum) :
    Ends (writeSegment (e.phdr ph) e.bytes s) fun t =>
      t.AtEnd ∧ t.img.content = s.img.content ++ e.segment ph := by
  have hdata := e.readable ph hph
  have hle := e.filesz_le ph hph
  have hlen := e.length_segment hph
  have hbuff : (fread e.bytes (e.phdr ph).offset (e.phdr ph).filesz ++
      (List.replicate (e.phdr ph).memsz (0 : UInt8)).drop (e.phdr ph).filesz).take
        (e.phdr ph).memsz = e.segment ph := by
    rw [List.drop_replicate]
    exact List.take_of_length_le hlen.le
  have hpos : (s.img.fseek s.nbytes).pos = (s.img.fseek s.nbytes).content.length := h.nbytes_eq
  unfold writeSegment
  dsimp only
  rw [hdata, if_neg (not_not.mpr rfl), hbuff, OutFile.fwrite_end hpos]
  refine Ends.some ⟨⟨?_, ?_⟩, rfl⟩
  · rw [List.length_append, ← hpos]
  · rw [List.length_append, ← hpos, hlen]
    rfl

/-- A file adds its sectors. -/
theorem addFile_appends (h : s.AtEnd) (hsector : sectorSize ∣ s.nbytes) :
    Ends (addFile s e.bytes) fun t =>
      t.AtEnd ∧ t.img.content = s.img.content ++ e.sectors := by
  unfold addFile
  rw [e.readEhdr_eq, Option.bind_eq_bind, Option.bind_some]
  apply Ends.bind (P := fun t : Image => t.AtEnd ∧ t.img.content = s.img.content ++ e.segments)
  · apply Ends.foldlM (List.range e.ehdr.phnum) (fun done (t : Image) =>
      t.AtEnd ∧ t.img.content = s.img.content ++ done.flatMap e.segment)
    · exact ⟨h, (List.append_nil _).symm⟩
    · rintro done ph rest t hl ⟨ht, hcontent⟩
      have hph : ph < e.ehdr.phnum :=
        List.mem_range.mp (hl ▸ List.mem_append_right done List.mem_cons_self)
      rw [e.readPhdr_eq ph hph, Option.bind_eq_bind, Option.bind_some]
      apply (writeSegment_appends ht hph).mono
      rintro u ⟨hu, happend⟩
      refine ⟨hu, ?_⟩
      rw [happend, hcontent, List.flatMap_append, List.append_assoc, List.flatMap_singleton]
  · rintro t ⟨ht, hcontent⟩
    have hmod : t.nbytes % sectorSize = e.segments.length % sectorSize := by
      rw [ht.nbytes_eq, hcontent, List.length_append, ← h.nbytes_eq]
      obtain ⟨k, hk⟩ := hsector
      rw [hk, Nat.mul_add_mod]
    dsimp only
    rw [hmod, OutFile.fwrite_end ht.pos_eq]
    refine Ends.some ⟨⟨?_, ?_⟩, ?_⟩
    · show t.nbytes + _ = (t.img.content ++ _).length
      rw [ht.nbytes_eq, List.length_append, List.length_replicate]
    · show t.nbytes + _ = (t.img.content ++ _).length
      rw [ht.nbytes_eq, List.length_append, List.length_replicate]
    · show t.img.content ++ _ = _
      rw [hcontent, List.append_assoc]
      rfl

/-- Before the patches the image is the sectors of the files. -/
theorem unpatched_eq (files : List Executable) :
    Ends (unpatched (files.map Executable.bytes)) fun s =>
      s.AtEnd ∧ s.img.content = files.flatMap Executable.sectors := by
  unfold unpatched
  rw [List.foldlM_map]
  apply Ends.foldlM files (fun done (t : Image) =>
    t.AtEnd ∧ t.img.content = done.flatMap Executable.sectors)
  · exact ⟨⟨rfl, rfl⟩, rfl⟩
  · rintro done e rest t _ ⟨ht, hcontent⟩
    have hdvd : sectorSize ∣ t.nbytes := by
      rw [ht.nbytes_eq, hcontent, List.length_flatMap]
      apply List.dvd_sum
      intro n hn
      obtain ⟨d, _, rfl⟩ := List.mem_map.mp hn
      exact d.dvd_length_sectors
    apply (addFile_appends ht hdvd).mono
    rintro u ⟨hu, happend⟩
    refine ⟨hu, ?_⟩
    rw [happend, hcontent, List.flatMap_append, List.flatMap_singleton]

/-- The two patches fill the last 66 bytes of the first sector. -/
theorem patches (img : OutFile) (nbytes : Nat) (hlen : sectorSize ≤ img.content.length) :
    (writeDpt (writeOsSize nbytes img)).content.drop osSizeLoc =
        osSizeBytes nbytes ++ img.content.drop sectorSize ∧
      (writeDpt (writeOsSize nbytes img)).content.length = img.content.length := by
  rw [sectorSize] at hlen
  have hsize : (img.fseek osSizeLoc).pos + (osSizeBytes nbytes).length ≤
      (img.fseek osSizeLoc).content.length := hlen
  obtain ⟨hsizeDrop, hsizeLen⟩ := OutFile.fwrite_inside hsize
  have hfull : (writeOsSize nbytes img).content.length = img.content.length := hsizeLen
  have hdpt : ((writeOsSize nbytes img).fseek dptLoc).pos + dptBytes.length ≤
      ((writeOsSize nbytes img).fseek dptLoc).content.length := by
    show 0x1fe ≤ (writeOsSize nbytes img).content.length
    omega
  obtain ⟨hdptDrop, hdptLen⟩ := OutFile.fwrite_inside hdpt
  constructor
  · have hbehind : (writeDpt (writeOsSize nbytes img)).content.drop (dptLoc + dptBytes.length) =
        (writeOsSize nbytes img).content.drop (dptLoc + dptBytes.length) := by
      rw [← List.drop_drop]
      show (((((writeOsSize nbytes img).fseek dptLoc).fwrite dptBytes).content.drop
        ((writeOsSize nbytes img).fseek dptLoc).pos).drop dptBytes.length) = _
      rw [hdptDrop, List.drop_left]
      rfl
    exact hbehind.trans hsizeDrop
  · exact hdptLen.trans hsizeLen

end Build

/-! ## The two agree -/

/-- The number of sectors that is written is the number that is read. -/
theorem osSize_eq {card : List UInt8} {rest : List UInt8} {n : Nat} (hn : n < 2 ^ 15)
    (hcard : card.drop osSizeLoc = osSizeBytes (sectorSize * n) ++ rest) : osSize card = n := by
  have hdiv : sectorSize * n / 0x200 % 2 ^ 16 = n := by
    unfold sectorSize
    omega
  have hbytes : osSizeBytes (sectorSize * n) = [UInt8.ofNat n, UInt8.ofNat (n / 256)] := by
    rw [osSizeBytes, hdiv]
  have hfield : field card osSizeLoc 2 = n := by
    rw [field, hcard, hbytes]
    show (UInt8.ofNat n).toNat + 256 * ((UInt8.ofNat (n / 256)).toNat + 256 * 0) = n
    rw [UInt8.toNat_ofNat', UInt8.toNat_ofNat']
    omega
  have hsmall : Int.bmod n (2 ^ 16) = n := by
    apply Int.bmod_eq_of_le_mul_two
    · omega
    · push_cast
      omega
  unfold osSize
  simp only [hfield, hsmall]

/-- The kernel begins at the second sector of the image, in the order of its
segments, and the boot loader reads exactly the rest of the image. -/
theorem image_loads (boot : Executable) (kernel : List Executable)
    (hboot : 1 ≤ boot.segments.length) (hfits : boot.segments.length ≤ 511)
    (hsize : (kernel.flatMap Executable.sectors).length ≤ 32767 * sectorSize) :
    ∃ plain image, unpatched ((boot :: kernel).map Executable.bytes) = some plain ∧
      createImage ((boot :: kernel).map Executable.bytes) = some image ∧
      image.drop 0x200 = kernel.flatMap Executable.sectors ∧
      image.drop 0x200 = plain.img.content.drop 0x200 ∧
      0 ≤ osSize image ∧ 0x200 + readSize image = image.length ∧
      loadedKernel image = image.drop 0x200 := by
  obtain ⟨plain, hplain, hend, hcontent⟩ := unpatched_eq (boot :: kernel)
  have hfirst : boot.sectors.length = 0x200 := by
    rw [Executable.sectors, Executable.padding, List.length_append, List.length_replicate,
      sectorSize]
    omega
  rw [List.flatMap_cons] at hcontent
  have hkernel : plain.img.content.drop 0x200 = kernel.flatMap Executable.sectors := by
    rw [hcontent, List.drop_append_of_le_length hfirst.ge, List.drop_eq_nil_of_le hfirst.le,
      List.nil_append]
  have hdvd : sectorSize ∣ (kernel.flatMap Executable.sectors).length := by
    rw [List.length_flatMap]
    apply List.dvd_sum
    intro n hn
    obtain ⟨e, _, rfl⟩ := List.mem_map.mp hn
    exact e.dvd_length_sectors
  obtain ⟨n, hn⟩ := hdvd
  have hlen : plain.img.content.length = 0x200 + sectorSize * n := by
    rw [hcontent, List.length_append, hfirst, hn]
  have hnbytes : plain.nbytes - sectorSize = sectorSize * n := by
    rw [hend.nbytes_eq, hlen, sectorSize]
    omega
  have hsectors : n < 2 ^ 15 := by
    rw [hn, sectorSize] at hsize
    omega
  have hone : sectorSize ≤ plain.img.content.length := by
    rw [hlen, sectorSize]
    omega
  obtain ⟨hdrop, hfull⟩ := patches plain.img (sectorSize * n) hone
  have hsame : (writeDpt (writeOsSize (sectorSize * n) plain.img)).content.drop 0x200 =
      plain.img.content.drop 0x200 := by
    show (writeDpt (writeOsSize (sectorSize * n) plain.img)).content.drop (osSizeLoc + 2) = _
    rw [← List.drop_drop, hdrop]
    rfl
  have hos := osSize_eq hsectors hdrop
  refine ⟨plain, (writeDpt (writeOsSize (sectorSize * n) plain.img)).content, hplain, ?_, ?_,
    hsame, ?_, ?_, ?_⟩
  · rw [createImage, hplain, Option.bind_eq_bind, Option.bind_some, hnbytes]
    rfl
  · rw [hsame, hkernel]
  · rw [hos]
    omega
  · rw [readSize, hos, hfull, hlen, sectorSize]
    push_cast
    ring
  · have hread : (readSize (writeDpt (writeOsSize (sectorSize * n) plain.img)).content).toNat =
        sectorSize * n := by
      rw [readSize, hos, sectorSize]
      omega
    rw [loadedKernel, fread, kernelOfs, hread]
    apply List.take_of_length_le
    rw [hsame, hkernel, hn]

/-! ## A small image -/

/-- An ELF file with one segment of the byte 7 and a zero. -/
def tinyElf : List UInt8 :=
  List.replicate 32 0 ++ [64, 0, 0, 0, 0, 0, 0, 0] ++ List.replicate 14 0 ++ [56, 0, 1, 0] ++
    List.replicate 14 0 ++ [120, 0, 0, 0, 0, 0, 0, 0] ++ List.replicate 16 0 ++
    [1, 0, 0, 0, 0, 0, 0, 0, 2, 0, 0, 0, 0, 0, 0, 0] ++ List.replicate 8 0 ++ [7]

/-- It has one program header, and one byte more in the memory than in the file. -/
def tiny : Executable where
  bytes := tinyElf
  ehdr := { phoff := 64, phentsize := 56, phnum := 1 }
  phdr _ := { offset := 120, filesz := 1, memsz := 2 }
  readEhdr_eq := by decide
  phentsize_eq := rfl
  readPhdr_eq ph hph := by
    obtain rfl : ph = 0 := Nat.lt_one_iff.mp hph
    decide
  readable ph hph := by decide
  filesz_le ph hph := by decide

theorem length_sectors_tiny : tiny.sectors.length = 0x200 := by
  have hlen : tiny.segments.length = 2 := by decide
  rw [Executable.sectors, Executable.padding, List.length_append, List.length_replicate, hlen]
  rfl

theorem tiny_image_loads :
    ∃ plain image, unpatched ([tiny, tiny].map Executable.bytes) = some plain ∧
      createImage ([tiny, tiny].map Executable.bytes) = some image ∧
      image.drop 0x200 = [tiny].flatMap Executable.sectors ∧
      image.drop 0x200 = plain.img.content.drop 0x200 ∧
      0 ≤ osSize image ∧ 0x200 + readSize image = image.length ∧
      loadedKernel image = image.drop 0x200 :=
  image_loads tiny [tiny] (by decide) (by decide) (by
    rw [List.flatMap_singleton, length_sectors_tiny]
    decide)

end MipsOs.Boot
