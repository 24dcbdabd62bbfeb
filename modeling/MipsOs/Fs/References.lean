import MipsOs.Fs.Copies
import MipsOs.Fs.DirTree
import MipsOs.Fs.Rmdir

/-!
# References to data blocks

The parts of the allocated inodes are the places where a file system names its data
blocks.  `Reconciled` says that these places and the blocks that are marked as used are
in one-to-one correspondence: every reference is to a used data block, no two are to
the same, and no used data block is without one.

Taking a block adds a place, freeing one deletes a place, and a write to a block that
holds no addresses leaves the places as they are.  The inodes are a parameter, because
the newest addresses of a file may be in a copy of its inode.
-/

namespace MipsOs.Fs

open MipsOs.Lib MipsOs.Lib.BlockProg

/-- A part of an inode. -/
@[ext]
structure Place where
  inodeId : Nat
  part : Part
  deriving DecidableEq

section Defs

variable (sb : SuperBlock) (s : BlockStore) (inodes : Nat → Inode)

/-- The block at a place. -/
def Place.block (o : Place) : Nat := o.part.addr s (inodes o.inodeId)

/-- The places that name a block. -/
def references : Set Place :=
  {o | Allocated sb s o.inodeId ∧ o.part.Ok ∧ o.block s inodes ≠ 0}

/-- The references and the used data blocks are in one-to-one correspondence. -/
def Reconciled : Prop :=
  Set.BijOn (Place.block s inodes) (references sb s inodes) {b | TakenData sb s b}

end Defs

section Reconciled

variable {sb : SuperBlock} {s t : BlockStore} {inodes inodes' : Nat → Inode} {i j : Nat}
  {p q : Part} {b c : Nat}

theorem Reconciled.taken (h : Reconciled sb s inodes) (hi : Allocated sb s i) (hp : p.Ok)
    (hne : p.addr s (inodes i) ≠ 0) : TakenData sb s (p.addr s (inodes i)) :=
  h.mapsTo (show (⟨i, p⟩ : Place) ∈ references sb s inodes from ⟨hi, hp, hne⟩)

/-- Two places with one block are one place. -/
theorem Reconciled.place_eq (h : Reconciled sb s inodes) (hi : Allocated sb s i) (hp : p.Ok)
    (hne : p.addr s (inodes i) ≠ 0) (hj : Allocated sb s j) (hq : q.Ok)
    (heq : p.addr s (inodes i) = q.addr s (inodes j)) : i = j ∧ p = q := by
  have hplace : (⟨i, p⟩ : Place) = ⟨j, q⟩ :=
    h.injOn (show (⟨i, p⟩ : Place) ∈ references sb s inodes from ⟨hi, hp, hne⟩)
      (show (⟨j, q⟩ : Place) ∈ references sb s inodes from ⟨hj, hq, heq.symm.trans_ne hne⟩) heq
  cases hplace
  exact ⟨rfl, rfl⟩

theorem Reconciled.fileOk (h : Reconciled sb s inodes) (hi : Allocated sb s i) :
    FileOk sb s (inodes i) where
  range _ hp hne := ⟨(h.taken hi hp hne).le, (h.taken hi hp hne).lt⟩
  used _ hp hne := (h.taken hi hp hne).used
  inj _ _ hp hq hne heq := (h.place_eq hi hp hne hi hq heq).2

/-- A block of addresses is no block of data. -/
theorem Reconciled.index_ne (h : Reconciled sb s inodes) (hi : Allocated sb s i) (hp : p.IsIndex)
    (hne : p.addr s (inodes i) ≠ 0) (hj : Allocated sb s j) (hq : q.Ok) (hdata : ¬ q.IsIndex) :
    p.addr s (inodes i) ≠ q.addr s (inodes j) := by
  intro heq
  obtain ⟨_, rfl⟩ := h.place_eq hi hp.ok hne hj hq heq
  exact hdata hp

theorem Reconciled.ne_free (h : Reconciled sb s inodes) (hi : Allocated sb s i) (hp : p.Ok)
    (hne : p.addr s (inodes i) ≠ 0) (hb : b ∈ freeBlocks sb s) : p.addr s (inodes i) ≠ b :=
  (h.fileOk hi).addr_ne_free hp hne hb

theorem not_taken_of_free (hb : b ∈ freeBlocks sb s) : ¬ TakenData sb s b :=
  fun htaken => (mem_freeBlocks.mp hb).2 htaken.used

/-! ## Transitions -/

/-- The places stay, and so do the used blocks. -/
theorem Reconciled.congr (h : Reconciled sb s inodes)
    (hused : ∀ i, Allocated sb t i ↔ Allocated sb s i)
    (htaken : ∀ c, TakenData sb t c ↔ TakenData sb s c)
    (haddr : ∀ i, Allocated sb s i → ∀ p : Part, p.Ok →
      p.addr t (inodes' i) = p.addr s (inodes i)) : Reconciled sb t inodes' := by
  have hplaces : references sb t inodes' = references sb s inodes := by
    ext o
    constructor
    · intro ⟨ho, hp, hne⟩
      have hold := (hused _).mp ho
      exact ⟨hold, hp, (haddr _ hold _ hp).symm.trans_ne hne⟩
    · intro ⟨ho, hp, hne⟩
      exact ⟨(hused _).mpr ho, hp, (haddr _ ho _ hp).trans_ne hne⟩
  have hset : {b | TakenData sb t b} = {b | TakenData sb s b} := Set.ext htaken
  rw [Reconciled, hplaces, hset]
  exact Set.BijOn.congr h fun o ho => (haddr _ ho.1 _ ho.2.1).symm

/-- One more place, for a block that was free. -/
theorem Reconciled.take (h : Reconciled sb s inodes) (hb : ¬ TakenData sb s b)
    (htaken : ∀ c, TakenData sb t c ↔ TakenData sb s c ∨ c = b)
    (hnew : p.addr t (inodes' i) = b)
    (hplaces : ∀ o, o ∈ references sb t inodes' ↔ o ∈ references sb s inodes ∨ o = ⟨i, p⟩)
    (haddr : ∀ o ∈ references sb s inodes, o.block t inodes' = o.block s inodes) :
    Reconciled sb t inodes' := by
  have hinsert : references sb t inodes' = insert ⟨i, p⟩ (references sb s inodes) := by
    ext o
    rw [hplaces, Set.mem_insert_iff, or_comm]
  have hset : {b | TakenData sb t b} = insert b {b | TakenData sb s b} := by
    ext c
    exact (htaken c).trans or_comm
  have hold : Set.BijOn (Place.block t inodes') (references sb s inodes) {b | TakenData sb s b} :=
    Set.BijOn.congr h fun o ho => (haddr o ho).symm
  rw [← hnew] at hb hset
  rw [Reconciled, hinsert, hset]
  exact hold.insert hb

/-- A place less, and its block is free. -/
theorem Reconciled.release (h : Reconciled sb s inodes) (hplace : ⟨i, p⟩ ∈ references sb s inodes)
    (htaken : ∀ c, TakenData sb t c ↔ TakenData sb s c ∧ c ≠ p.addr s (inodes i))
    (hplaces : ∀ o, o ∈ references sb t inodes' ↔ o ∈ references sb s inodes ∧ o ≠ ⟨i, p⟩)
    (haddr : ∀ o ∈ references sb t inodes', o.block t inodes' = o.block s inodes) :
    Reconciled sb t inodes' := by
  have hdiff : references sb t inodes' = references sb s inodes \ {⟨i, p⟩} := Set.ext hplaces
  have hset : {b | TakenData sb t b} = {b | TakenData sb s b} \ {p.addr s (inodes i)} :=
    Set.ext htaken
  have hold := Set.BijOn.sdiff_singleton h hplace
  rw [Reconciled, hset]
  refine Set.BijOn.congr ?_ fun o ho => (haddr o ho).symm
  rw [hdiff]
  exact hold

end Reconciled

/-! ## The blocks of one file -/

section Growth

variable {sb : SuperBlock} {s t : BlockStore} {inodes : Nat → Inode} {i j : Nat} {m : Inode}
  {p q : Part} {b c : Nat} {ps : List Part}

theorem Adds.allocated_iff (h : Adds sb s (inodes i) t m p b) :
    Allocated sb t j ↔ Allocated sb s j :=
  ⟨fun hj => ⟨hj.lt, (h.inodeUsed_iff j).mp hj.used⟩,
    fun hj => ⟨hj.lt, (h.inodeUsed_iff j).mpr hj.used⟩⟩

theorem Adds.taken_iff (h : Adds sb s (inodes i) t m p b) :
    TakenData sb t c ↔ TakenData sb s c ∨ c = b := by
  obtain ⟨⟨hle, hlt⟩, _⟩ := mem_freeBlocks.mp h.free
  constructor
  · intro hc
    rcases (h.used_iff c hc.lt).mp hc.used with hold | rfl
    · exact .inl ⟨hc.le, hc.lt, hold⟩
    · exact .inr rfl
  · rintro (hc | rfl)
    · exact ⟨hc.le, hc.lt, (h.used_iff c hc.lt).mpr (.inl hc.used)⟩
    · exact ⟨hle, hlt, (h.used_iff c hlt).mpr (.inr rfl)⟩

/-- The files with other inodes keep their blocks. -/
theorem Adds.addr_other (h : Adds sb s (inodes i) t m p b) (hrec : Reconciled sb s inodes)
    (hi : Allocated sb s i) (hj : Allocated sb s j) (hne : j ≠ i) (hq : q.Ok) :
    q.addr t (inodes j) = q.addr s (inodes j) := by
  apply addr_congr _ hq
  intro r hr hrne
  apply h.data_eq _ (hrec.taken hj hr.ok hrne).le (hrec.ne_free hj hr.ok hrne h.free)
  intro r' hr' hrne' heq
  exact hne (hrec.place_eq hi hr'.ok hrne' hj hr.ok heq).1.symm

theorem Adds.reconciled (h : Adds sb s (inodes i) t m p b) (hr : Regions sb)
    (hrec : Reconciled sb s inodes) (hi : Allocated sb s i) :
    Reconciled sb t (Function.update inodes i m) := by
  have haddr : ∀ o : Place, Allocated sb s o.inodeId → o.part.Ok →
      o.block t (Function.update inodes i m) =
        if o = ⟨i, p⟩ then b else o.block s inodes := by
    rintro ⟨j, q⟩ hj hq
    unfold Place.block
    by_cases hji : j = i
    · subst hji
      simp only [Function.update_self, h.addr_eq q hq, Place.mk.injEq, true_and]
    · simp only [Function.update_of_ne hji, h.addr_other hrec hi hj hji hq, Place.mk.injEq, hji,
        false_and, if_false]
  have hb := ne_zero_of_free hr h.free
  apply hrec.take (p := p) (b := b) (not_taken_of_free h.free) (fun c => h.taken_iff)
  · exact (haddr ⟨i, p⟩ hi h.ok).trans (if_pos rfl)
  · intro o
    by_cases ho : o = ⟨i, p⟩
    · subst ho
      refine iff_of_true ⟨h.allocated_iff.mpr hi, h.ok, ?_⟩ (.inr rfl)
      rw [haddr _ hi h.ok, if_pos rfl]
      exact hb
    · rw [or_iff_left ho]
      constructor
      · intro ⟨hj, hq, hne⟩
        have hold := h.allocated_iff.mp hj
        rw [haddr o hold hq, if_neg ho] at hne
        exact ⟨hold, hq, hne⟩
      · intro ⟨hj, hq, hne⟩
        refine ⟨h.allocated_iff.mpr hj, hq, ?_⟩
        rw [haddr o hj hq, if_neg ho]
        exact hne
  · intro o ho
    rw [haddr o ho.1 ho.2.1, if_neg]
    rintro rfl
    exact ho.2.2 h.absent

/-- What one file has got, the other files have not lost. -/
theorem Grows.reconciled (h : Grows sb s (inodes i) ps t m) (hr : Regions sb)
    (hrec : Reconciled sb s inodes) (hi : Allocated sb s i) :
    Reconciled sb t (Function.update inodes i m) ∧ ∀ j, Allocated sb t j ↔ Allocated sb s j := by
  generalize hn : inodes i = n at h
  induction h with
  | nil =>
    rw [← hn, Function.update_eq_self]
    exact ⟨hrec, fun j => Iff.rfl⟩
  | @snoc ps t u m k p b _ hadd ih =>
    obtain ⟨hstep, hused⟩ := ih
    rw [← Function.update_self i m inodes] at hadd
    have hlast := hadd.reconciled hr hstep ((hused i).mpr hi)
    rw [Function.update_idem] at hlast
    exact ⟨hlast, fun j => hadd.allocated_iff.trans (hused j)⟩

/-- A write to a block of data. -/
theorem Reconciled.updateData (h : Reconciled sb s inodes) (hr : Regions sb)
    (hi : Allocated sb s i) (hp : p.Ok) (hdata : ¬ p.IsIndex) (hne : p.addr s (inodes i) ≠ 0)
    (x : Block) : Reconciled sb (Function.update s (p.addr s (inodes i)) x) inodes := by
  have hle := (h.taken hi hp hne).le
  apply h.congr
  · intro j
    exact ⟨fun hj => ⟨hj.lt, (inodeUsed_updateData hr hle).mp hj.used⟩,
      fun hj => ⟨hj.lt, (inodeUsed_updateData hr hle).mpr hj.used⟩⟩
  · intro c
    exact ⟨fun hc => ⟨hc.le, hc.lt, (blockUsed_updateData hr hle hc.lt).mp hc.used⟩,
      fun hc => ⟨hc.le, hc.lt, (blockUsed_updateData hr hle hc.lt).mpr hc.used⟩⟩
  · intro j hj q hq
    apply addr_congr _ hq
    intro r hr hrne
    exact Function.update_of_ne (h.index_ne hj hr hrne hi hp hdata) _ _

end Growth

/-! ## Creation and removal -/

/-- The directory names its block in the inode that counts. -/
structure NamesBlock (sb : SuperBlock) (s : BlockStore) (inodes : Nat → Inode) (d : Nat) :
    Prop where
  dir : Directory sb s d
  eq : (inodes d).addrs 0 = (inodeOf sb s d).addrs 0
  ne_zero : (inodeOf sb s d).addrs 0 ≠ 0

section Directories

variable {sb : SuperBlock} {s s' : BlockStore} {inodes : Nat → Inode} {fa n inodeId d j c : Nat}
  {p q : Part} {name : CString} {newBlock : Option Nat} {b : Nat} {undef : RmdirUndef}

/-- The blocks of addresses are not written when a directory block is. -/
theorem NamesBlock.addr_eq (h : NamesBlock sb s inodes d) (hrec : Reconciled sb s inodes)
    (hsame : ∀ c, TakenData sb s c → c ≠ (inodeOf sb s d).addrs 0 → s' c = s c)
    (hj : Allocated sb s j) (hq : q.Ok) : q.addr s' (inodes j) = q.addr s (inodes j) := by
  apply addr_congr _ hq
  intro r hr hrne
  apply hsame _ (hrec.taken hj hr.ok hrne)
  rw [← h.eq]
  exact hrec.index_ne hj hr hrne h.dir.toAllocated (q := .slot 0) trivial (by decide)

theorem Created.addr_old (hc : Created sb s s' fa n name inodeId newBlock)
    (hrec : Reconciled sb s inodes) (hfa : NamesBlock sb s inodes fa) (hj : Allocated sb s j)
    (hq : q.Ok) : q.addr s' (inodes j) = q.addr s (inodes j) := by
  apply hfa.addr_eq hrec _ hj hq
  intro b hb hne
  apply hc.data_eq b hb.le hne
  intro hnew
  exact (hc.block b hnew).2.2.1 hb.used

theorem Created.taken_iff (hc : Created sb s s' fa n name inodeId newBlock) :
    TakenData sb s' b ↔ TakenData sb s b ∨ newBlock = some b := by
  constructor
  · intro hb
    rcases (hc.blockUsed_iff b hb.lt).mp hb.used with hold | hnew
    · exact .inl ⟨hb.le, hb.lt, hold⟩
    · exact .inr hnew
  · rintro (hb | hnew)
    · exact ⟨hb.le, hb.lt, (hc.blockUsed_iff b hb.lt).mpr (.inl hb.used)⟩
    · have hblock := hc.block b hnew
      exact ⟨hblock.1, hblock.2.1, (hc.blockUsed_iff b hblock.2.1).mpr (.inr hnew)⟩

/-- A place of an inode that was there, in the inodes with the new one. -/
theorem Created.block_old (hc : Created sb s s' fa n name inodeId newBlock)
    (hrec : Reconciled sb s inodes) (hfa : NamesBlock sb s inodes fa) {o : Place} (m : Inode)
    (ho : Allocated sb s o.inodeId) (hp : o.part.Ok) :
    o.block s' (Function.update inodes inodeId m) = o.block s inodes := by
  have hne : o.inodeId ≠ inodeId := fun heq => hc.not_allocated (heq ▸ ho)
  unfold Place.block
  rw [Function.update_of_ne hne]
  exact hc.addr_old hrec hfa ho hp

/-- A new file without addresses has no place. -/
theorem Created.reconciled_file (hc : Created sb s s' fa n name inodeId none)
    (hrec : Reconciled sb s inodes) (hfa : NamesBlock sb s inodes fa) {m : Inode}
    (hzero : ∀ a, m.addrs a = 0) : Reconciled sb s' (Function.update inodes inodeId m) := by
  have hplaces : references sb s' (Function.update inodes inodeId m) =
      references sb s inodes := by
    ext o
    constructor
    · intro ⟨ho, hp, hne⟩
      rcases hc.allocated_iff.mp ho with hold | hnew
      · exact ⟨hold, hp, (hc.block_old hrec hfa m hold hp).symm.trans_ne hne⟩
      · rw [Place.block, hnew, Function.update_self] at hne
        exact absurd (addr_empty hzero _) hne
    · intro ⟨ho, hp, hne⟩
      exact ⟨hc.allocated_iff.mpr (.inl ho), hp, (hc.block_old hrec hfa m ho hp).trans_ne hne⟩
  have hset : {b | TakenData sb s' b} = {b | TakenData sb s b} := by
    ext b
    exact hc.taken_iff.trans (or_iff_left nofun)
  rw [Reconciled, hplaces, hset]
  exact Set.BijOn.congr hrec fun o ho => (hc.block_old hrec hfa m ho.1 ho.2.1).symm

/-- Of an inode with one address that part has a block. -/
theorem addr_single {m : Inode} (hzero : ∀ a, a ≠ 0 → m.addrs a = 0) (hp : p.Ok)
    (hne : p.addr s m ≠ 0) : p = .slot 0 := by
  have hindex : ∀ q : Part, q.IsIndex → q.addr s m = 0 := by
    intro q hq
    cases q with
    | slot a =>
      rcases hq with rfl | rfl
      · exact hzero 10 (by decide)
      · exact hzero 11 (by decide)
    | entry r k =>
      cases r with
      | slot a =>
        obtain ⟨rfl, _⟩ := hq
        exact if_pos (hzero 11 (by decide))
      | entry _ _ => exact hq.elim
  cases p with
  | slot a =>
    by_contra hslot
    exact hne (hzero a fun ha => hslot (ha ▸ rfl))
  | entry q k => exact absurd (if_pos (hindex q hp.1)) hne

/-- A new directory has the place of its block. -/
theorem Created.reconciled_dir (hr : Regions sb)
    (hc : Created sb s s' fa n name inodeId (some b)) (hrec : Reconciled sb s inodes)
    (hfa : NamesBlock sb s inodes fa) {m : Inode} (hm : m.addrs 0 = b)
    (hzero : ∀ a, a ≠ 0 → m.addrs a = 0) :
    Reconciled sb s' (Function.update inodes inodeId m) := by
  obtain ⟨hle, hlt, hfree, _⟩ := hc.block b rfl
  have hpos := hr.dataStart_pos
  have hself := Function.update_self inodeId m inodes
  have hnew : Place.block s' (Function.update inodes inodeId m) ⟨inodeId, .slot 0⟩ = b := by
    rw [Place.block, hself]
    exact hm
  apply hrec.take (i := inodeId) (p := .slot 0) (b := b) (fun htaken => hfree htaken.used)
  · intro c
    rw [hc.taken_iff, Option.some.injEq, eq_comm (a := b)]
  · exact hnew
  · intro o
    constructor
    · intro ⟨ho, hp, hne⟩
      rcases hc.allocated_iff.mp ho with hold | hinode
      · exact .inl ⟨hold, hp, (hc.block_old hrec hfa m hold hp).symm.trans_ne hne⟩
      · rw [Place.block, hinode, hself] at hne
        exact .inr (Place.ext hinode (addr_single hzero hp hne))
    · rintro (⟨ho, hp, hne⟩ | rfl)
      · exact ⟨hc.allocated_iff.mpr (.inl ho), hp,
          (hc.block_old hrec hfa m ho hp).trans_ne hne⟩
      · refine ⟨hc.allocated_iff.mpr (.inr rfl), trivial, ?_⟩
        rw [hnew]
        omega
  · intro o ho
    exact hc.block_old hrec hfa m ho.1 ho.2.1

/-- A removal that frees the block of the directory deletes its place. -/
theorem Freed.reconciled (hf : Freed sb s s' undef c) (hrec : Reconciled sb s inodes)
    (hparent : NamesBlock sb s inodes (parentOf sb s c)) (hdir : NamesBlock sb s inodes c)
    (hzero : ∀ a, a ≠ 0 → (inodes c).addrs a = 0)
    (hfreed : freedBlock sb s c = (inodeOf sb s c).addrs 0) : Reconciled sb s' inodes := by
  have haddr : ∀ o : Place, Allocated sb s o.inodeId → o.part.Ok →
      o.block s' inodes = o.block s inodes := by
    intro o ho hp
    apply hparent.addr_eq hrec _ ho hp
    intro b hb hne
    exact hf.data_eq b hb.le hne
  have hallocated : ∀ i, Allocated sb s' i ↔ Allocated sb s i ∧ i ≠ c := by
    intro i
    constructor
    · intro hi
      have hused := (hf.used_iff i).mp hi.used
      exact ⟨⟨hi.lt, hused.1⟩, hused.2⟩
    · intro ⟨hi, hne⟩
      exact ⟨hi.lt, (hf.used_iff i).mpr ⟨hi.used, hne⟩⟩
  have hplace : (⟨c, .slot 0⟩ : Place) ∈ references sb s inodes :=
    ⟨hdir.dir.toAllocated, trivial, hdir.eq.trans_ne hdir.ne_zero⟩
  apply hrec.release hplace
  · intro b
    have hblock : Part.addr s (inodes c) (.slot 0) = freedBlock sb s c :=
      hdir.eq.trans hfreed.symm
    rw [hblock]
    constructor
    · intro hb
      have hused := (hf.blockUsed_iff b hb.lt).mp hb.used
      exact ⟨⟨hb.le, hb.lt, hused.1⟩, hused.2⟩
    · intro ⟨hb, hne⟩
      exact ⟨hb.le, hb.lt, (hf.blockUsed_iff b hb.lt).mpr ⟨hb.used, hne⟩⟩
  · intro o
    constructor
    · intro ⟨ho, hp, hne⟩
      obtain ⟨hold, hoc⟩ := (hallocated _).mp ho
      refine ⟨⟨hold, hp, (haddr o hold hp).symm.trans_ne hne⟩, ?_⟩
      rintro rfl
      exact hoc rfl
    · intro ⟨⟨ho, hp, hne⟩, hoc⟩
      refine ⟨(hallocated _).mpr ⟨ho, fun hinode => hoc (Place.ext hinode ?_)⟩, hp,
        (haddr o ho hp).trans_ne hne⟩
      rw [Place.block, hinode] at hne
      exact addr_single hzero hp hne
  · intro o ho
    exact haddr o ((hallocated _).mp ho.1).1 ho.2.1

end Directories

end MipsOs.Fs
