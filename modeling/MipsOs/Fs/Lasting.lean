import MipsOs.Fs.FileBlocks

/-!
# What `find_data_block` leaves as it is

`find_data_block` only fills what was empty: it takes free blocks, it writes an
address where a block of addresses holds a zero, and it gives an address to a slot of
the inode copy that has none.  `Lasts` and `KeepsSlots` say so without a word about the
file, so they hold over every store, and also when no block is free and the new
addresses are those of an uninitialised local.

`Marked` is what is left of a part that was missing.  It lasts, too.
-/

namespace MipsOs.Fs

open MipsOs.Lib MipsOs.Lib.BlockProg

/-- A block of the data region that is taken. -/
structure TakenData (sb : SuperBlock) (s : BlockStore) (c : Nat) : Prop where
  le : sb.dataStart ≤ c
  lt : c < sb.size
  used : BlockUsed sb s c

/-- The blocks that are taken stay taken, and the words of taken data blocks that are
not zero stay as they are. -/
structure Lasts (sb : SuperBlock) (s t : BlockStore) : Prop where
  used : ∀ b < sb.size, BlockUsed sb s b → BlockUsed sb t b
  word_eq : ∀ c, TakenData sb s c → ∀ k < addrPerBlock,
    Bytes.word (s c) k ≠ 0 → Bytes.word (t c) k = Bytes.word (s c) k

/-- The slots that have a block keep it. -/
def KeepsSlots (n m : Inode) : Prop := ∀ a, n.addrs a ≠ 0 → m.addrs a = n.addrs a

/-- A number behind the last block. -/
structure Beyond (sb : SuperBlock) (undef : Nat) : Prop where
  data : sb.dataStart ≤ undef
  size : sb.size ≤ undef
  lt : undef < 2 ^ 32

/-- A block that `alloc_data_block` can answer: a free one, or what its local holds. -/
structure NewBlock (sb : SuperBlock) (s : BlockStore) (b : Nat) : Prop where
  le : sb.dataStart ≤ b
  lt : b < 2 ^ 32
  new : ¬ TakenData sb s b

section Lasts

variable {sb : SuperBlock} {s t u : BlockStore} {n m l : Inode} {b c k : Nat}

theorem Lasts.refl (sb : SuperBlock) (s : BlockStore) : Lasts sb s s where
  used := fun _ _ h => h
  word_eq := fun _ _ _ _ _ => rfl

theorem Lasts.taken (h : Lasts sb s t) (hc : TakenData sb s c) : TakenData sb t c :=
  ⟨hc.le, hc.lt, h.used c hc.lt hc.used⟩

theorem Lasts.trans (h : Lasts sb s t) (h' : Lasts sb t u) : Lasts sb s u where
  used := fun b hb hused => h'.used b hb (h.used b hb hused)
  word_eq := by
    intro c hc k hk hne
    have hfirst := h.word_eq c hc k hk hne
    rw [h'.word_eq c (h.taken hc) k hk (hfirst ▸ hne), hfirst]

theorem KeepsSlots.refl (n : Inode) : KeepsSlots n n := fun _ _ => rfl

theorem KeepsSlots.trans (h : KeepsSlots n m) (h' : KeepsSlots m l) : KeepsSlots n l := by
  intro a hne
  rw [h' a (h a hne ▸ hne), h a hne]

theorem KeepsSlots.setAddr {a : Fin 13} (h : n.addrs a = 0) (v : Nat) :
    KeepsSlots n (n.setAddr a v) := by
  intro c hne
  have hca : c ≠ a := by
    rintro rfl
    exact hne h
  exact Function.update_of_ne hca _ _

/-- Another bit of the bitmap. -/
theorem lasts_takeBlock (hr : Regions sb) (hb : b < sb.size) : Lasts sb s (takeBlock sb s b) where
  used := fun _ _ hused => blockUsed_takeBlock.mpr (Or.inl hused)
  word_eq := by
    intro c hc k _ _
    rw [takeBlock_data hr hb hc.le]

/-- A page of a new block. -/
theorem Lasts.updateNew (hr : Regions sb) (h : Lasts sb s t) (hb : NewBlock sb s b) (x : Block) :
    Lasts sb s (Function.update t b x) where
  used := fun c hc hused => (blockUsed_updateData hr hb.le hc).mpr (h.used c hc hused)
  word_eq := by
    intro c hc k hk hne
    have hcb : c ≠ b := by
      rintro rfl
      exact hb.new hc
    rw [Function.update_of_ne hcb]
    exact h.word_eq c hc k hk hne

/-- A word that was zero. -/
theorem Lasts.updateWord (h : Lasts sb s t) (hzero : Bytes.word (s c) k = 0) (v : Nat) :
    Lasts sb s (Function.update t c (Bytes.setWord (t c) k v)) where
  used := by
    intro b hb hused
    have hlast := h.used b hb hused
    by_cases hpage : c = bitmapBlock sb b
    · subst hpage
      unfold BlockUsed at *
      rw [bitmapCheck_eq] at *
      have hk : b % bitsPerBlock / 32 ≠ k := by
        rintro rfl
        rw [hzero, Nat.zero_testBit] at hused
        cases hused
      rw [Function.update_self, Bytes.word_setWord_of_ne _ hk]
      exact hlast
    · exact (blockUsed_update hpage).mpr hlast
  word_eq := by
    intro d hd j hj hne
    by_cases hdc : d = c
    · subst hdc
      have hjk : j ≠ k := by
        rintro rfl
        exact hne hzero
      rw [Function.update_self, Bytes.word_setWord_of_ne _ hjk]
      exact h.word_eq d hd j hj hne
    · rw [Function.update_of_ne hdc]
      exact h.word_eq d hd j hj hne

end Lasts

/-! ## What is left of a missing part -/

/-- A free block has been taken, or the local is where a data block held a zero. -/
def StoreMarked (sb : SuperBlock) (undef : Nat) (s t : BlockStore) : Prop :=
  (∃ b ∈ freeBlocks sb s, BlockUsed sb t b) ∨
    ∃ c k, TakenData sb s c ∧ k < addrPerBlock ∧ Bytes.word (s c) k = 0 ∧
      Bytes.word (t c) k = undef

/-- The store has changed like that, or the local is in a slot that had no block. -/
def Marked (sb : SuperBlock) (undef : Nat) (s : BlockStore) (n : Inode) (t : BlockStore)
    (m : Inode) : Prop :=
  StoreMarked sb undef s t ∨ ∃ a, n.addrs a = 0 ∧ m.addrs a = undef

section Marked

variable {sb : SuperBlock} {undef : Nat} {s t u : BlockStore} {n m l : Inode}

theorem Beyond.ne_zero (hr : Regions sb) (h : Beyond sb undef) : undef ≠ 0 := by
  have hpos := hr.dataStart_pos
  have hle := h.data
  omega

theorem StoreMarked.lasts (hr : Regions sb) (hundef : Beyond sb undef)
    (h : StoreMarked sb undef s t) (hst : Lasts sb s t) (htu : Lasts sb t u) :
    StoreMarked sb undef s u := by
  rcases h with ⟨b, hb, hused⟩ | ⟨c, k, hc, hk, hzero, hword⟩
  · exact Or.inl ⟨b, hb, htu.used b (mem_freeBlocks.mp hb).1.2 hused⟩
  · refine Or.inr ⟨c, k, hc, hk, hzero, ?_⟩
    rw [htu.word_eq c (hst.taken hc) k hk (hword ▸ hundef.ne_zero hr), hword]

theorem StoreMarked.updateNew (hr : Regions sb) {b : Nat} (hb : NewBlock sb s b)
    (h : StoreMarked sb undef s t) (x : Block) :
    StoreMarked sb undef s (Function.update t b x) := by
  rcases h with ⟨d, hd, hused⟩ | ⟨c, k, hc, hk, hzero, hword⟩
  · exact Or.inl ⟨d, hd, (blockUsed_updateData hr hb.le (mem_freeBlocks.mp hd).1.2).mpr hused⟩
  · have hcb : c ≠ b := by
      rintro rfl
      exact hb.new hc
    exact Or.inr ⟨c, k, hc, hk, hzero, by rwa [Function.update_of_ne hcb]⟩

theorem Marked.lasts (hr : Regions sb) (hundef : Beyond sb undef) (h : Marked sb undef s n t m)
    (hst : Lasts sb s t) (htu : Lasts sb t u) (hml : KeepsSlots m l) :
    Marked sb undef s n u l := by
  rcases h with hstore | ⟨a, hzero, hslot⟩
  · exact Or.inl (hstore.lasts hr hundef hst htu)
  · exact Or.inr ⟨a, hzero, by rw [hml a (hslot ▸ hundef.ne_zero hr), hslot]⟩

end Marked

/-! ## The steps -/

section Steps

variable {sb : SuperBlock} {undef : Nat} {s : BlockStore} {n : Inode} {k page : Nat}

theorem allocDataBlock_sat_cases (hr : Regions sb) :
    (allocDataBlock sb undef).Sat s fun b t =>
      b ∈ freeBlocks sb s ∧ t = takeBlock sb s b ∨ b = undef ∧ t = s := by
  by_cases hfree : ∃ b, sb.dataStart ≤ b ∧ b < sb.size ∧ ¬ BlockUsed sb s b
  · apply (allocDataBlock_sat hr hfree).mono
    intro b t h
    obtain ⟨hb, hbn, hunused, ht⟩ := h
    exact Or.inl ⟨mem_freeBlocks.mpr ⟨⟨hb, hbn⟩, hunused⟩, ht⟩
  · have hused : ∀ b, sb.dataStart ≤ b → b < sb.size → BlockUsed sb s b := by
      intro b hb hbn
      by_contra hunused
      exact hfree ⟨b, hb, hbn, hunused⟩
    exact (allocDataBlock_sat_none hr hused).mono fun _ _ h => Or.inr h

/-- The answer is new, and what was taken stays taken. -/
theorem allocDataBlock_lasts (hr : Regions sb) (hundef : Beyond sb undef) :
    (allocDataBlock sb undef).Sat s fun b t => NewBlock sb s b ∧ Lasts sb s t ∧
      (b ∈ freeBlocks sb s ∧ BlockUsed sb t b ∨ b = undef) := by
  have hsize := hr.size_lt
  apply (allocDataBlock_sat_cases hr).mono
  rintro b t (⟨hb, rfl⟩ | ⟨rfl, rfl⟩)
  · obtain ⟨⟨hle, hlt⟩, hunused⟩ := mem_freeBlocks.mp hb
    exact ⟨⟨hle, by omega, fun h => hunused h.used⟩, lasts_takeBlock hr hlt,
      Or.inl ⟨hb, blockUsed_takeBlock.mpr (Or.inr rfl)⟩⟩
  · have hnew : ¬ TakenData sb t b := by
      intro h
      have hlt := h.lt
      have hle := hundef.size
      omega
    exact ⟨⟨hundef.data, hundef.lt, hnew⟩, Lasts.refl sb t, Or.inr rfl⟩

/-- A data block that is written after the allocation. -/
theorem taken_updateData (hr : Regions sb) {t : BlockStore} {b c : Nat} (hc : sb.dataStart ≤ c)
    (x : Block) (h : b ∈ freeBlocks sb s ∧ BlockUsed sb t b ∨ b = undef) :
    b ∈ freeBlocks sb s ∧ BlockUsed sb (Function.update t c x) b ∨ b = undef := by
  apply h.imp_left
  rintro ⟨hb, hused⟩
  exact ⟨hb, (blockUsed_updateData hr hc (mem_freeBlocks.mp hb).1.2).mpr hused⟩

theorem addrBlock_lasts (hr : Regions sb) (hundef : Beyond sb undef) (a : Fin 13) :
    (addrBlock sb undef n a).Sat s fun r t => Lasts sb s t ∧ KeepsSlots n r.2 ∧
      (n.addrs a = 0 → Marked sb undef s n t r.2) ∧
      (n.addrs a ≠ 0 → r = (n.addrs a, n) ∧ t = s) := by
  unfold addrBlock
  by_cases hzero : n.addrs a = 0
  · rw [if_neg (not_not.mpr hzero)]
    simp only [sat_bind, sat_blockGet, sat_read, sat_write, sat_pure, setAddr_addrs_self]
    apply (allocDataBlock_lasts hr hundef).mono
    intro b t h x
    obtain ⟨hnew, hlasts, hb⟩ := h
    have hcleared := (hlasts.updateNew hr hnew x).updateNew hr hnew
      (clearFirst (Function.update t b x b))
    have htaken := taken_updateData hr hnew.le (clearFirst (Function.update t b x b))
      (taken_updateData hr hnew.le x hb)
    refine ⟨hcleared, KeepsSlots.setAddr hzero b, fun _ => ?_, fun hne => absurd hzero hne⟩
    rcases htaken with ⟨hb, hused⟩ | rfl
    · exact Or.inl (Or.inl ⟨b, hb, hused⟩)
    · exact Or.inr ⟨a, hzero, setAddr_addrs_self n a b⟩
  · rw [if_pos hzero]
    exact ⟨Lasts.refl sb s, KeepsSlots.refl n, fun h => absurd h hzero, fun _ => ⟨rfl, rfl⟩⟩

/-- The entry of a data block that held a zero is marked. -/
theorem storeMarked_updateWord (hr : Regions sb) {t : BlockStore} {b : Nat}
    (hnew : NewBlock sb s b) (hk : k < addrPerBlock) (hpage : TakenData sb s page)
    (hzero : Bytes.word (s page) k = 0)
    (h : b ∈ freeBlocks sb s ∧ BlockUsed sb t b ∨ b = undef) :
    StoreMarked sb undef s (Function.update t page (Bytes.setWord (t page) k b)) := by
  rcases taken_updateData hr hpage.le (Bytes.setWord (t page) k b) h with ⟨hb, hused⟩ | rfl
  · exact Or.inl ⟨b, hb, hused⟩
  · refine Or.inr ⟨page, k, hpage, hk, hzero, ?_⟩
    rw [addrPerBlock] at hk
    rw [Function.update_self, Bytes.word_setWord_same _ (by omega) hnew.lt]

theorem addrEntry_lasts (hr : Regions sb) (hundef : Beyond sb undef) (hk : k < addrPerBlock) :
    (addrEntry sb undef page k).Sat s fun _ t => Lasts sb s t ∧
      (TakenData sb s page → Bytes.word (s page) k = 0 → StoreMarked sb undef s t) := by
  unfold addrEntry
  rw [sat_bind, sat_read]
  by_cases hzero : Bytes.word (s page) k = 0
  · rw [if_neg (not_not.mpr hzero)]
    simp only [sat_bind, sat_read, sat_write, sat_pure]
    apply (allocDataBlock_lasts hr hundef).mono
    intro b t h
    obtain ⟨hnew, hlasts, hb⟩ := h
    exact ⟨hlasts.updateWord hzero b,
      fun hpage _ => storeMarked_updateWord hr hnew hk hpage hzero hb⟩
  · rw [if_pos hzero]
    exact ⟨Lasts.refl sb s, fun _ h => absurd h hzero⟩

theorem addrEntryBlock_lasts (hr : Regions sb) (hundef : Beyond sb undef) (hk : k < addrPerBlock) :
    (addrEntryBlock sb undef page k).Sat s fun r t => Lasts sb s t ∧
      (TakenData sb s page → Bytes.word (s page) k = 0 → StoreMarked sb undef s t) ∧
      (Bytes.word (s page) k ≠ 0 → r.1 = Bytes.word (s page) k ∧ t = s) := by
  unfold addrEntryBlock
  rw [sat_bind, sat_read]
  by_cases hzero : Bytes.word (s page) k = 0
  · rw [if_neg (not_not.mpr hzero)]
    simp only [sat_bind, sat_blockGet, sat_read, sat_write, sat_pure]
    apply (allocDataBlock_lasts hr hundef).mono
    intro b t h
    obtain ⟨hnew, hlasts, hb⟩ := h
    have hback : Bytes.word (Function.update t page (Bytes.setWord (t page) k b) page) k = b := by
      rw [addrPerBlock] at hk
      rw [Function.update_self, Bytes.word_setWord_same _ (by omega) hnew.lt]
    rw [hback]
    intro x
    constructor
    · exact ((hlasts.updateWord hzero b).updateNew hr hnew x).updateNew hr hnew _
    · refine ⟨fun hpage _ => ?_, fun hne => absurd hzero hne⟩
      exact ((storeMarked_updateWord hr hnew hk hpage hzero hb).updateNew hr hnew x).updateNew hr
        hnew _
  · rw [if_pos hzero]
    exact ⟨Lasts.refl sb s, fun _ h => absurd h hzero, fun _ => ⟨rfl, rfl⟩⟩

theorem addrPerBlock_pos : 0 < addrPerBlock := by decide

/-- `find_data_block` keeps what was there, and it leaves a mark of a missing part of a
file. -/
theorem findDataBlock_lasts (hr : Regions sb) (hundef : Beyond sb undef) (offset : Nat) :
    (findDataBlock sb undef n offset).Sat s fun r t => Lasts sb s t ∧ KeepsSlots n r.2 ∧
      (FileOk sb s n → offset / blockSize < maxFileBlocks →
        (dataPart (offset / blockSize)).absent s n ≠ [] → Marked sb undef s n t r.2) := by
  have htaken : ∀ p : Part, FileOk sb s n → p.Ok → p.addr s n ≠ 0 →
      TakenData sb s (p.addr s n) := fun p hok hp hne =>
    ⟨(hok.range p hp hne).1, (hok.range p hp hne).2, hok.used p hp hne⟩
  unfold findDataBlock
  dsimp only
  by_cases hdirect : offset / blockSize < 10
  · rw [dif_pos hdirect, dataPart_direct hdirect]
    by_cases hzero : (n.grow (offset / blockSize)).addrs ⟨offset / blockSize, by omega⟩ = 0
    · rw [if_pos hzero, sat_bind]
      apply (allocDataBlock_lasts hr hundef).mono
      intro b t h
      obtain ⟨_, hlasts, hb⟩ := h
      refine ⟨hlasts, KeepsSlots.setAddr hzero b, fun _ _ _ => ?_⟩
      rcases hb with ⟨hb, hused⟩ | rfl
      · exact Or.inl (Or.inl ⟨b, hb, hused⟩)
      · exact Or.inr ⟨_, hzero, setAddr_addrs_self _ _ b⟩
    · rw [if_neg hzero]
      refine ⟨Lasts.refl sb s, fun _ _ => rfl, fun _ _ habsent => ?_⟩
      rw [Ne, Part.absent_slot_eq_nil_iff] at habsent
      exact absurd hzero habsent
  rw [dif_neg hdirect]
  by_cases hindirect : offset / blockSize < 10 + addrPerBlock
  · have hk : offset / blockSize - 10 < addrPerBlock := by omega
    rw [if_pos hindirect, dataPart_indirect hdirect hindirect, sat_bind]
    apply (addrBlock_lasts hr hundef 10).mono
    rintro ⟨page, m⟩ t ⟨hlasts, hkeeps, hmark, hsame⟩
    dsimp only
    rw [sat_bind]
    apply (addrEntry_lasts hr hundef hk).mono
    rintro ⟨b, dirty⟩ u ⟨hlasts', hentry⟩
    refine ⟨hlasts.trans hlasts', hkeeps, fun hok _ habsent => ?_⟩
    by_cases hslot : n.addrs 10 = 0
    · exact (hmark hslot).lasts hr hundef hlasts hlasts' (KeepsSlots.refl m)
    · obtain ⟨hpage, rfl⟩ := hsame hslot
      obtain ⟨rfl, rfl⟩ := Prod.mk.inj hpage
      have hslot' : (Part.slot 10).addr t n ≠ 0 := hslot
      refine Or.inl (hentry (htaken (.slot 10) hok trivial hslot') ?_)
      by_contra hne
      apply habsent
      rw [Part.absent_entry_eq_nil_iff, Part.absent_slot_eq_nil_iff, Part.addr_entry hslot']
      exact ⟨hslot, hne⟩
  rw [if_neg hindirect, dataPart_double hdirect hindirect]
  by_cases hdouble : offset / blockSize < 10 + addrPerBlock + addrPerBlock * addrPerBlock
  · have hk := double_lt hindirect hdouble
    have hk' : (offset / blockSize - 10 - addrPerBlock) % addrPerBlock < addrPerBlock :=
      Nat.mod_lt _ addrPerBlock_pos
    rw [if_pos hdouble, sat_bind]
    generalize (offset / blockSize - 10 - addrPerBlock) / addrPerBlock = i3Block at *
    generalize (offset / blockSize - 10 - addrPerBlock) % addrPerBlock = i4Block at *
    apply (addrBlock_lasts hr hundef 11).mono
    rintro ⟨page, m⟩ t ⟨hlasts, hkeeps, hmark, hsame⟩
    dsimp only
    rw [sat_bind]
    apply (addrEntryBlock_lasts hr hundef hk).mono
    rintro ⟨doubleAddrs, dirty⟩ u ⟨hlasts', hentry, hsame'⟩
    dsimp only
    rw [sat_bind]
    apply (addrEntry_lasts hr hundef hk').mono
    rintro ⟨b, dirty'⟩ v ⟨hlasts'', hentry'⟩
    refine ⟨(hlasts.trans hlasts').trans hlasts'', hkeeps, fun hok _ habsent => ?_⟩
    by_cases hslot : n.addrs 11 = 0
    · exact (hmark hslot).lasts hr hundef hlasts (hlasts'.trans hlasts'') (KeepsSlots.refl m)
    obtain ⟨hpage, rfl⟩ := hsame hslot
    obtain ⟨rfl, rfl⟩ := Prod.mk.inj hpage
    by_cases hparent : Bytes.word (t (n.addrs 11)) i3Block = 0
    · exact Or.inl ((hentry (htaken (.slot 11) hok trivial hslot) hparent).lasts hr hundef hlasts'
        hlasts'')
    · obtain ⟨rfl, rfl⟩ := hsame' hparent
      have hslot' : (Part.slot 11).addr u n ≠ 0 := hslot
      have hdoubleAddrs := Part.addr_entry hslot' i3Block
      have hparent' : (Part.entry (.slot 11) i3Block).addr u n ≠ 0 := hdoubleAddrs ▸ hparent
      have hpage := htaken (.entry (.slot 11) i3Block) hok ⟨Or.inr rfl, hk⟩ hparent'
      rw [hdoubleAddrs] at hpage
      refine Or.inl (hentry' hpage ?_)
      by_contra hne
      apply habsent
      rw [Part.absent_entry_eq_nil_iff, Part.absent_entry_eq_nil_iff, Part.absent_slot_eq_nil_iff,
        Part.addr_entry hparent', hdoubleAddrs]
      exact ⟨⟨hslot, hparent⟩, hne⟩
  · rw [if_neg hdouble]
    exact ⟨Lasts.refl sb s, fun _ _ => rfl, fun _ hmax => absurd hmax hdouble⟩

end Steps

end MipsOs.Fs
