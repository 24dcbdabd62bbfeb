import MipsOs.Fs.References
import MipsOs.Fs.TreeSteps
import MipsOs.Fs.Transfer

/-!
# What a transfer does to a file system

`find_data_block` works on the copy of an inode that an open file has.  `Extended`
says what that comes to for the file system as a whole: the references still account
for the used blocks, the inodes and the directories are as before, and the data of
every file is where it was.

`findDataBlock_extended` is one call, and `Extended.trans` puts calls together.
-/

namespace MipsOs.Fs

open MipsOs.Lib MipsOs.Lib.BlockProg

/-! ## The head of the copy -/

/-- The type and the number of links are the same. -/
structure SameHead (n m : Inode) : Prop where
  type_eq : m.type = n.type
  nLinks_eq : m.nLinks = n.nLinks

section Head

variable {sb : SuperBlock} {undef : Nat} {s : BlockStore} {n m k : Inode}

theorem SameHead.refl (n : Inode) : SameHead n n := ⟨rfl, rfl⟩

theorem SameHead.trans (h : SameHead n m) (h' : SameHead m k) : SameHead n k :=
  ⟨h'.type_eq.trans h.type_eq, h'.nLinks_eq.trans h.nLinks_eq⟩

theorem sameHead_setAddr (n : Inode) (a : Fin 13) (v : Nat) : SameHead n (n.setAddr a v) :=
  ⟨rfl, rfl⟩

theorem addrBlock_head (a : Fin 13) :
    (addrBlock sb undef n a).Sat s fun r _ => SameHead n r.2 := by
  unfold addrBlock
  split
  · exact SameHead.refl n
  · rw [sat_bind, sat_iff_flat]
    intro unread x
    exact sameHead_setAddr n a _

/-- `find_data_block` writes the size and the addresses of the copy. -/
theorem findDataBlock_head (offset : Nat) :
    (findDataBlock sb undef n offset).Sat s fun r _ => SameHead n r.2 := by
  unfold findDataBlock
  dsimp only
  split
  · split
    · rw [sat_bind, sat_iff_flat]
      exact fun _ => ⟨rfl, rfl⟩
    · exact ⟨rfl, rfl⟩
  · split
    · rw [sat_bind]
      apply (addrBlock_head 10).mono
      intro r t hgrown
      have hhead : SameHead n r.2 := ⟨hgrown.type_eq, hgrown.nLinks_eq⟩
      rw [sat_bind, sat_iff_flat]
      exact fun _ => hhead
    · split
      · rw [sat_bind]
        apply (addrBlock_head 11).mono
        intro r t hgrown
        have hhead : SameHead n r.2 := ⟨hgrown.type_eq, hgrown.nLinks_eq⟩
        rw [sat_bind, sat_iff_flat]
        intro unread
        rw [sat_bind, sat_iff_flat]
        exact fun _ => hhead
      · exact ⟨rfl, rfl⟩

end Head

/-! ## The file system around the copy -/

/-- The inodes and the bitmap of inodes are as before, no block is freed, and the data
of the files is where it was, and what it was but for the places that are written. -/
structure FileStep (sb : SuperBlock) (written : Set Place) (s t : BlockStore)
    (inodes inodes' : Nat → Inode) : Prop where
  used_iff : ∀ i, InodeUsed sb t i ↔ InodeUsed sb s i
  inode_eq : ∀ i < bitsPerBlock, inodeOf sb t i = inodeOf sb s i
  blockUsed : ∀ b < sb.size, BlockUsed sb s b → BlockUsed sb t b
  block_eq : ∀ o ∈ references sb s inodes, o.block t inodes' = o.block s inodes
  data_eq : ∀ o ∈ references sb s inodes, ¬ o.part.IsIndex → o ∉ written →
    t (o.block s inodes) = s (o.block s inodes)

section Step

variable {sb : SuperBlock} {s t u : BlockStore} {inodes inodes' inodes'' : Nat → Inode}
  {i : Nat} {n m : Inode} {p : Part} {b : Nat} {ps : List Part} {written written' : Set Place}

theorem FileStep.refl (sb : SuperBlock) (s : BlockStore) (inodes : Nat → Inode) :
    FileStep sb ∅ s s inodes inodes where
  used_iff _ := Iff.rfl
  inode_eq _ _ := rfl
  blockUsed _ _ h := h
  block_eq _ _ := rfl
  data_eq _ _ _ _ := rfl

theorem FileStep.allocated_iff (h : FileStep sb written s t inodes inodes') :
    Allocated sb t i ↔ Allocated sb s i :=
  ⟨fun hi => ⟨hi.lt, (h.used_iff i).mp hi.used⟩, fun hi => ⟨hi.lt, (h.used_iff i).mpr hi.used⟩⟩

theorem FileStep.place (h : FileStep sb written s t inodes inodes') {o : Place}
    (ho : o ∈ references sb s inodes) : o ∈ references sb t inodes' :=
  ⟨h.allocated_iff.mpr ho.1, ho.2.1, (h.block_eq o ho).trans_ne ho.2.2⟩

theorem FileStep.trans (h : FileStep sb written s t inodes inodes')
    (h' : FileStep sb written' t u inodes' inodes'') :
    FileStep sb (written ∪ written') s u inodes inodes'' where
  used_iff i := (h'.used_iff i).trans (h.used_iff i)
  inode_eq i hi := (h'.inode_eq i hi).trans (h.inode_eq i hi)
  blockUsed b hb hused := h'.blockUsed b hb (h.blockUsed b hb hused)
  block_eq o ho := (h'.block_eq o (h.place ho)).trans (h.block_eq o ho)
  data_eq o ho hdata hnot := by
    rw [Set.mem_union, not_or] at hnot
    have hlast := h'.data_eq o (h.place ho) hdata hnot.2
    rw [h.block_eq o ho] at hlast
    exact hlast.trans (h.data_eq o ho hdata hnot.1)

theorem FileStep.mono (h : FileStep sb written s t inodes inodes') (hsub : written ⊆ written') :
    FileStep sb written' s t inodes inodes' :=
  { h with data_eq := fun o ho hdata hnot => h.data_eq o ho hdata fun hw => hnot (hsub hw) }

theorem Adds.fileStep (h : Adds sb s (inodes i) t m p b) (hrec : Reconciled sb s inodes)
    (hi : Allocated sb s i) : FileStep sb ∅ s t inodes (Function.update inodes i m) where
  used_iff := h.inodeUsed_iff
  inode_eq := h.inode_eq
  blockUsed c hc hused := (h.used_iff c hc).mpr (.inl hused)
  block_eq o ho := by
    obtain ⟨j, q⟩ := o
    obtain ⟨hj, hq, hne⟩ := ho
    unfold Place.block
    by_cases hji : j = i
    · subst hji
      have hqp : q ≠ p := by
        rintro rfl
        exact hne h.absent
      simp only [Function.update_self, h.addr_eq q hq, if_neg hqp]
    · simp only [Function.update_of_ne hji]
      exact h.addr_other hrec hi hj hji hq
  data_eq o ho hdata _ := by
    obtain ⟨hj, hq, hne⟩ := ho
    apply h.data_eq _ (hrec.taken hj hq hne).le (hrec.ne_free hj hq hne h.free)
    intro r hr hrne
    exact hrec.index_ne hi hr hrne hj hq hdata

theorem Grows.fileStep (h : Grows sb s (inodes i) ps t m) (hr : Regions sb)
    (hrec : Reconciled sb s inodes) (hi : Allocated sb s i) :
    FileStep sb ∅ s t inodes (Function.update inodes i m) := by
  generalize hn : inodes i = n at h
  induction h with
  | nil =>
    rw [← hn, Function.update_eq_self]
    exact FileStep.refl sb s inodes
  | @snoc ps t u m k p b hgrows hadd ih =>
    rw [← hn] at hgrows
    obtain ⟨hstep, hused⟩ := hgrows.reconciled hr hrec hi
    rw [← Function.update_self i m inodes] at hadd
    have hlast := hadd.fileStep hstep ((hused i).mpr hi)
    rw [Function.update_idem] at hlast
    have hboth := ih.trans hlast
    rwa [Set.union_empty] at hboth

/-- The directories stay when no place of a directory is written. -/
theorem FileStep.sameDirs (h : FileStep sb written s t inodes inodes')
    (hdirs : ∀ d, Directory sb s d → NamesBlock sb s inodes d)
    (hwritten : ∀ o ∈ written, ¬ Directory sb s o.inodeId) : SameDirs sb s t where
  used_iff := h.used_iff
  type_eq i hi := congrArg Inode.type (h.inode_eq i hi)
  addr_eq d hd := by rw [h.inode_eq d hd.lt]
  dirOf_eq d hd := by
    have hnames := hdirs d hd
    have hplace : (⟨d, .slot 0⟩ : Place) ∈ references sb s inodes :=
      ⟨hd.toAllocated, trivial, hnames.eq.trans_ne hnames.ne_zero⟩
    have hdata := h.data_eq _ hplace (by decide : ¬ (Part.slot 0).IsIndex)
      fun hw => hwritten _ hw hd
    have hblock : Place.block s inodes ⟨d, .slot 0⟩ = (inodeOf sb s d).addrs 0 := hnames.eq
    rw [hblock] at hdata
    unfold dirOf
    rw [h.inode_eq d hd.lt, hdata]
  blockUsed := h.blockUsed

end Step

/-! ## The copy in the file system -/

/-- The inodes with the newer addresses of the copy `m` of inode `i`. -/
def withCopy (inodes : Nat → Inode) (i : Nat) (m : Inode) : Nat → Inode :=
  Function.update inodes i ((inodes i).join m)

/-- From the copy `n` of inode `i` to the copy `m`. -/
structure Extended (sb : SuperBlock) (i : Nat) (written : Set Place) (s : BlockStore)
    (inodes : Nat → Inode) (n : Inode) (t : BlockStore) (m : Inode) : Prop where
  reconciled : Reconciled sb t (withCopy inodes i m)
  step : FileStep sb written s t inodes (withCopy inodes i m)
  keeps : KeepsSlots n m
  head : SameHead n m
  size_le : m.size ≤ max n.size maxFileBlocks

section Extended

variable {sb : SuperBlock} {s t u : BlockStore} {inodes : Nat → Inode} {i : Nat}
  {n m k : Inode} {written written' : Set Place}

theorem withCopy_self : withCopy inodes i m i = (inodes i).join m := Function.update_self _ _ _

theorem withCopy_of_ne {j : Nat} (h : j ≠ i) : withCopy inodes i m j = inodes j :=
  Function.update_of_ne h _ _

theorem withCopy_withCopy (h : KeepsSlots m k) :
    withCopy (withCopy inodes i m) i k = withCopy inodes i k := by
  unfold withCopy
  rw [Function.update_self, Function.update_idem, h.join_join]

theorem withCopy_eq (h : KeepsSlots n (inodes i)) : withCopy inodes i n = inodes := by
  unfold withCopy
  rw [h.join_eq, Function.update_eq_self]

theorem Extended.refl (hrec : Reconciled sb s inodes) (hold : KeepsSlots n (inodes i)) :
    Extended sb i ∅ s inodes n s n where
  reconciled := (withCopy_eq hold).symm ▸ hrec
  step := (withCopy_eq hold).symm ▸ FileStep.refl sb s inodes
  keeps := KeepsSlots.refl n
  head := SameHead.refl n
  size_le := le_max_left _ _

theorem Extended.trans (h : Extended sb i written s inodes n t m)
    (h' : Extended sb i written' t (withCopy inodes i m) m u k) :
    Extended sb i (written ∪ written') s inodes n u k where
  reconciled := withCopy_withCopy h'.keeps ▸ h'.reconciled
  step := h.step.trans (withCopy_withCopy h'.keeps ▸ h'.step)
  keeps := h.keeps.trans h'.keeps
  head := h.head.trans h'.head
  size_le := by
    have hfirst := h.size_le
    have hsecond := h'.size_le
    omega

end Extended

/-! ## The lookup of a block -/

/-- The slot of the inode that a part hangs from. -/
def Part.root : Part → Fin 13
  | slot a => a
  | entry p _ => p.root

/-- The copy has the slot, or no inode of the file has it. -/
def SlotKnown (n newest : Inode) (a : Fin 13) : Prop := n.addrs a ≠ 0 ∨ newest.addrs a = 0

section Lookup

variable {sb : SuperBlock} {s t : BlockStore} {inodes : Nat → Inode} {i offset undef : Nat}
  {n m : Inode} {p : Part} {a : Fin 13} {ps : List Part} {unread : List (Option Block)}

theorem slot_of_mem_absent (h : .slot a ∈ p.absent s n) : a = p.root ∧ n.addrs a = 0 := by
  have hmissing : ∀ q : Part, .slot a ∈ q.missing s n → q = .slot a ∧ n.addrs a = 0 := by
    intro q hq
    by_cases hzero : q.addr s n = 0
    · rw [Part.missing_eq_single hzero, List.mem_singleton] at hq
      subst hq
      exact ⟨rfl, hzero⟩
    · rw [Part.missing_eq_nil hzero] at hq
      cases hq
  induction p with
  | slot b =>
    obtain ⟨hb, hzero⟩ := hmissing _ h
    cases hb
    exact ⟨rfl, hzero⟩
  | entry q k ih =>
    rcases List.mem_append.mp h with hq | hk
    · exact ih hq
    · cases (hmissing _ hk).1

theorem Grows.size_eq (h : Grows sb s n ps t m) : m.size = n.size := by
  induction h with
  | nil => rfl
  | snoc _ hadd ih => exact hadd.size_eq.trans ih

/-- The newer copy knows the slot when the older one does. -/
theorem SlotKnown.keeps {newest : Inode} (h : SlotKnown n newest a) (hkeeps : KeepsSlots n m) :
    SlotKnown m (newest.join m) a := by
  rcases h with hne | hzero
  · exact .inl (hkeeps a hne ▸ hne)
  · by_cases hm : m.addrs a = 0
    · exact .inr ((Inode.join_of_zero hm).trans hzero)
    · exact .inl hm

theorem findDataBlock_extended (hr : Regions sb) (hrec : Reconciled sb s inodes)
    (hi : Allocated sb s i) (hold : KeepsSlots n (inodes i))
    (hmax : offset / blockSize < maxFileBlocks)
    (hreach : CanReach sb s n (dataPart (offset / blockSize)) unread)
    (hslot : SlotKnown n (inodes i) (dataPart (offset / blockSize)).root) :
    ∃ t m rest b, (findDataBlock sb undef n offset).flat unread s = ((b, m), rest, t) ∧
      Extended sb i ∅ s inodes n t m ∧ b = (dataPart (offset / blockSize)).addr t m ∧ b ≠ 0 := by
  have hok := hrec.fileOk hi
  obtain ⟨t, m, rest, hflat, hens⟩ :=
    findDataBlock_flat undef unread hr (hold.fileOk hok) hmax hreach
  refine ⟨t, m, rest, _, hflat, ?_, rfl, hens.present⟩
  have hgrows := hens.grows.join (k := inodes i) hr hok hold fun a ha => by
    obtain ⟨rfl, hzero⟩ := slot_of_mem_absent ha
    exact hslot.resolve_left (not_not.mpr hzero)
  have hhead := (@findDataBlock_head sb undef s n offset).flat unread
  rw [hflat] at hhead
  refine ⟨(hgrows.reconciled hr hrec hi).1, hgrows.fileStep hr hrec hi,
    hens.grows.keepsSlots, hhead, ?_⟩
  rw [hens.grows.size_eq]
  exact max_le_max_left n.size hmax

end Lookup

end MipsOs.Fs
