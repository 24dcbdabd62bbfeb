import MipsOs.Fs.FileParts

/-!
# `find_data_block` over a flat store

`find_data_block` gives every missing part on the way to a file block a free
block, from the inode down.  `findDataBlock_flat` is the result, and the lemmas
before it are about the steps: a block that the inode names, an entry of a block
of addresses, and a block of addresses in either place.

A new block of addresses comes in a page that `block_get` does not read, and the
source clears one word of it.  The lemmas ask that the page holds zeros behind
that word (`Blank`).
-/

namespace MipsOs.Fs

open MipsOs.Lib MipsOs.Lib.BlockProg

/-! ## The allocation of one block -/

section Allocate

variable {sb : SuperBlock} {s : BlockStore}

theorem allocFrom_reads (n i bitmapBlockId page : Nat) :
    (allocFrom sb n i bitmapBlockId page).Reads := by
  induction n generalizing i bitmapBlockId page with
  | zero => trivial
  | succ n ih =>
    unfold allocFrom
    apply Reads.bind
    · unfold nextBitmap
      split_ifs
      · exact ⟨rfl, fun _ => trivial⟩
      · trivial
    · intro r bitmap
      show Reads (if bitmapCheck bitmap (i % bitsPerBlock) = true then _ else _)
      split_ifs
      · exact ih _ _ _
      · trivial

theorem allocDataBlock_reads (undef : Nat) : (allocDataBlock sb undef).Reads := by
  refine ⟨rfl, fun page => ?_⟩
  apply Reads.bind (allocFrom_reads _ _ _ _)
  exact fun _ => trivial

/-- Without a free block the answer of the allocator is its local. -/
theorem allocDataBlock_flat_full (hr : Regions sb)
    (hused : ∀ b, sb.dataStart ≤ b → b < sb.size → BlockUsed sb s b) (undef : Nat)
    (unread : List (Option Block)) :
    (allocDataBlock sb undef).flat unread s = (undef, unread, s) := by
  obtain ⟨hanswer, hstore⟩ := (@allocDataBlock_sat_none sb s undef hr hused).flat unread
  exact Prod.ext hanswer (Prod.ext ((allocDataBlock_reads undef).flat_unread unread s) hstore)

theorem allocDataBlock_flat_none (hr : Regions sb) (hnone : freeBlocks sb s = ∅)
    (undef : Nat) (unread : List (Option Block)) :
    (allocDataBlock sb undef).flat unread s = (undef, unread, s) := by
  apply allocDataBlock_flat_full hr
  intro b hb hbn
  by_contra hunused
  exact Finset.notMem_empty b (hnone ▸ mem_freeBlocks.mpr ⟨⟨hb, hbn⟩, hunused⟩)

/-- `alloc_data_block` takes a free block. -/
theorem allocDataBlock_flat (undef : Nat) (unread : List (Option Block))
    (hr : Regions sb)
    (hfree : 0 < (freeBlocks sb s).card) :
    ∃ b ∈ freeBlocks sb s,
      (allocDataBlock sb undef).flat unread s = (b, unread, takeBlock sb s b) := by
  obtain ⟨c, hc⟩ := Finset.card_pos.mp hfree
  obtain ⟨hrange, hunused⟩ := mem_freeBlocks.mp hc
  obtain ⟨hle, hlt, hfree', hstore⟩ :=
    (@allocDataBlock_sat sb s undef hr ⟨c, hrange.1, hrange.2, hunused⟩).flat unread
  refine ⟨_, mem_freeBlocks.mpr ⟨⟨hle, hlt⟩, hfree'⟩, ?_⟩
  exact Prod.ext rfl (Prod.ext ((allocDataBlock_reads undef).flat_unread unread s) hstore)

end Allocate

/-! ## The steps of `find_data_block` -/

/-- The next `k` pages that arrive are blank. -/
def Supply : Nat → List (Option Block) → Prop
  | 0, _ => True
  | k + 1, some x :: unread => Blank x ∧ Supply k unread
  | _ + 1, _ => False

theorem Supply.cases {k : Nat} {unread : List (Option Block)} (h : Supply (k + 1) unread) :
    ∃ x rest, unread = some x :: rest ∧ Blank x ∧ Supply k rest := by
  cases unread with
  | nil => exact h.elim
  | cons y rest =>
    cases y with
    | none => exact h.elim
    | some x => exact ⟨x, rest, rfl, h⟩

/-- A page that arrives and is cleared. -/
theorem arrive_cleared (s : BlockStore) (b : Nat) (x : Block) :
    Function.update (arrive s b (some x)) b (clearFirst (arrive s b (some x) b)) =
      Function.update s b (clearFirst x) := by
  show Function.update (Function.update s b x) b (clearFirst (Function.update s b x b)) = _
  rw [Function.update_self, Function.update_idem]

/-- The part has a block, and so have the parts above it. -/
structure Ensured (sb : SuperBlock) (s : BlockStore) (n : Inode) (p : Part) (t : BlockStore)
    (m : Inode) : Prop where
  grows : Grows sb s n (p.absent s n) t m
  present : p.addr t m ≠ 0

/-- The number of blocks of addresses above a part that are missing. -/
def newIndexes (s : BlockStore) (n : Inode) : Part → Nat
  | .slot _ => 0
  | .entry p _ => (p.absent s n).length

/-- The blocks that the way to a part needs are free, and the pages that arrive
on it are blank. -/
structure CanReach (sb : SuperBlock) (s : BlockStore) (n : Inode) (p : Part)
    (unread : List (Option Block)) : Prop where
  free : (p.absent s n).length ≤ (freeBlocks sb s).card
  supply : Supply (newIndexes s n p) unread

/-- A part with its whole way needs no page. -/
theorem supply_newIndexes_of_present {s : BlockStore} {n : Inode} {p : Part}
    (h : p.absent s n = []) (unread : List (Option Block)) :
    Supply (newIndexes s n p) unread := by
  cases p with
  | slot a => trivial
  | entry p k =>
    rw [newIndexes, (Part.absent_entry_eq_nil_iff.mp h).1]
    trivial

theorem canReach_of_present {sb : SuperBlock} {s : BlockStore} {n : Inode} {p : Part}
    (h : p.absent s n = []) (unread : List (Option Block)) : CanReach sb s n p unread where
  free := by
    rw [h]
    exact Nat.zero_le _
  supply := supply_newIndexes_of_present h unread

section Steps

variable {sb : SuperBlock} {s : BlockStore} {n : Inode} {k : Nat} {p : Part}

/-- A slot without a block gets a free one, whose page is cleared. -/
theorem addrBlock_flat_new (undef : Nat) (x : Block) (rest : List (Option Block))
    (hr : Regions sb) {a : Fin 13} (hfree : 0 < (freeBlocks sb s).card) (hzero : n.addrs a = 0) :
    ∃ b ∈ freeBlocks sb s, (addrBlock sb undef n a).flat (some x :: rest) s =
      ((b, n.setAddr a b), rest, Function.update (takeBlock sb s b) b (clearFirst x)) := by
  obtain ⟨b, hb, halloc⟩ := allocDataBlock_flat undef (some x :: rest) hr hfree
  refine ⟨b, hb, ?_⟩
  unfold addrBlock
  rw [if_neg (not_not.mpr hzero), flat_bind, halloc]
  simp only [flat_bind, flat_read, flat_write, flat_blockGet, flat_pure, setAddr_addrs_self,
    List.tail_cons, List.head?_cons, Option.join_some, arrive_cleared]

theorem addrBlock_flat_present (undef : Nat) (unread : List (Option Block)) {a : Fin 13}
    (h : n.addrs a ≠ 0) :
    (addrBlock sb undef n a).flat unread s = ((n.addrs a, n), unread, s) := by
  rw [addrBlock, if_pos h]
  rfl

theorem addrEntryBlock_flat_present (undef : Nat) (unread : List (Option Block)) {page : Nat}
    (h : Bytes.word (s page) k ≠ 0) :
    (addrEntryBlock sb undef page k).flat unread s =
      ((Bytes.word (s page) k, false), unread, s) := by
  rw [addrEntryBlock, flat_bind, flat_read, if_pos h]
  rfl

/-- An entry that names a block. -/
theorem addrEntry_flat_present (undef : Nat) (unread : List (Option Block)) {page : Nat}
    (hne : Bytes.word (s page) k ≠ 0) :
    (addrEntry sb undef page k).flat unread s =
      ((Bytes.word (s page) k, false), unread, s) := by
  unfold addrEntry
  rw [flat_bind, flat_read, if_pos hne]
  rfl

/-- A block of addresses that a slot of the inode names. -/
theorem addrBlock_flat (undef : Nat) (unread : List (Option Block))
    (hr : Regions sb) (hok : FileOk sb s n) {a : Fin 13}
    (hfree : ((Part.slot a).absent s n).length ≤ (freeBlocks sb s).card)
    (hsupply : Supply ((Part.slot a).absent s n).length unread) :
    ∃ t m, (addrBlock sb undef n a).flat unread s =
        (((Part.slot a).addr t m, m), unread.drop ((Part.slot a).absent s n).length, t) ∧
      Ensured sb s n (.slot a) t m := by
  by_cases hzero : n.addrs a = 0
  · have habsent : (Part.slot a).absent s n = [.slot a] := Part.missing_eq_single hzero
    rw [habsent, List.length_singleton] at hfree hsupply ⊢
    obtain ⟨x, rest, rfl, hx, _⟩ := hsupply.cases
    obtain ⟨b, hb, hflat⟩ := addrBlock_flat_new undef x rest hr hfree hzero
    have hself := setAddr_addrs_self n a b
    refine ⟨_, n.setAddr a b, ?_, habsent ▸ (adds_slotBlock hr hok hb hzero hx).grows, ?_⟩
    · rw [hflat]
      simp only [Part.addr, hself, List.drop_one, List.tail_cons]
    · show (n.setAddr a b).addrs a ≠ 0
      rw [hself]
      exact ne_zero_of_free hr hb
  · have habsent : (Part.slot a).absent s n = [] := Part.missing_eq_nil hzero
    refine ⟨s, n, ?_, habsent ▸ .nil, hzero⟩
    rw [habsent, addrBlock, if_pos hzero]
    rfl

/-- A block that a slot of the inode names. -/
theorem directBlock_flat (undef : Nat) (unread : List (Option Block))
    (hr : Regions sb) (hok : FileOk sb s n) {a : Fin 13}
    (hfree : ((Part.slot a).absent s n).length ≤ (freeBlocks sb s).card)
    (hdata : ¬ (Part.slot a).IsIndex) :
    ∃ t m, (if n.addrs a = 0 then do
          let dataBlockId ← allocDataBlock sb undef
          return (dataBlockId, n.setAddr a dataBlockId)
        else
          return (n.addrs a, n) : Prog (Nat × Inode)).flat unread s =
        (((Part.slot a).addr t m, m), unread, t) ∧ Ensured sb s n (.slot a) t m := by
  by_cases hzero : n.addrs a = 0
  · have habsent : (Part.slot a).absent s n = [.slot a] := Part.missing_eq_single hzero
    rw [habsent, List.length_singleton] at hfree
    obtain ⟨b, hb, halloc⟩ := allocDataBlock_flat undef unread hr hfree
    have hself := setAddr_addrs_self n a b
    refine ⟨_, n.setAddr a b, ?_, habsent ▸ (adds_slot hr hok hb hzero hdata).grows, ?_⟩
    · rw [if_pos hzero, flat_bind, halloc]
      simp only [flat_pure, Part.addr, hself]
    · show (n.setAddr a b).addrs a ≠ 0
      rw [hself]
      exact ne_zero_of_free hr hb
  · have habsent : (Part.slot a).absent s n = [] := Part.missing_eq_nil hzero
    refine ⟨s, n, ?_, habsent ▸ .nil, hzero⟩
    rw [if_neg hzero]
    rfl

/-- A data block that an entry of a block of addresses names. -/
theorem addrEntry_flat (undef : Nat) (unread : List (Option Block))
    (hr : Regions sb) (hok : FileOk sb s n) (hp : p.IsIndex)
    (hne : p.addr s n ≠ 0) (hk : k < addrPerBlock) (hdata : ¬ (Part.entry p k).IsIndex)
    (hfree : ((Part.entry p k).missing s n).length ≤ (freeBlocks sb s).card) :
    ∃ t dirty, (addrEntry sb undef (p.addr s n) k).flat unread s =
        (((Part.entry p k).addr t n, dirty), unread, t) ∧
      Grows sb s n ((Part.entry p k).missing s n) t n ∧ (Part.entry p k).addr t n ≠ 0 := by
  have haddr := Part.addr_entry hne k
  by_cases hzero : Bytes.word (s (p.addr s n)) k = 0
  · have habsent := haddr.trans hzero
    rw [Part.missing_eq_single habsent, List.length_singleton] at hfree
    rw [Part.missing_eq_single habsent]
    obtain ⟨b, hb, halloc⟩ := allocDataBlock_flat undef unread hr hfree
    have hadds := adds_entry hr hok hb hp hne hk habsent hdata
    have hnew := hadds.addr_eq _ hadds.ok
    rw [if_pos rfl] at hnew
    refine ⟨_, true, ?_, hadds.grows, ?_⟩
    · unfold addrEntry
      rw [flat_bind, flat_read, if_neg (not_not.mpr hzero), flat_bind, halloc, hnew]
      rfl
    · rw [hnew]
      exact ne_zero_of_free hr hb
  · rw [Part.missing_eq_nil (haddr ▸ hzero)]
    refine ⟨s, false, ?_, .nil, haddr ▸ hzero⟩
    rw [addrEntry_flat_present undef unread hzero, haddr]

/-- The source reads the new address back. -/
theorem word_written (hr : Regions sb) {b c : Nat} (hb : b ∈ freeBlocks sb s)
    (hk : k < addrPerBlock) (t : BlockStore) :
    Bytes.word (Function.update t c (Bytes.setWord (t c) k b) c) k = b := by
  have hsize := hr.size_lt
  have hlt := (mem_freeBlocks.mp hb).1.2
  rw [addrPerBlock] at hk
  rw [Function.update_self]
  exact Bytes.word_setWord_same _ (by omega) (by omega)

/-- A block of addresses that an entry of another one names. -/
theorem addrEntryBlock_flat (undef : Nat) (unread : List (Option Block))
    (hr : Regions sb) (hok : FileOk sb s n) (hp : p.IsIndex)
    (hne : p.addr s n ≠ 0) (hk : k < addrPerBlock)
    (hfree : ((Part.entry p k).missing s n).length ≤ (freeBlocks sb s).card)
    (hsupply : Supply ((Part.entry p k).missing s n).length unread) :
    ∃ t dirty, (addrEntryBlock sb undef (p.addr s n) k).flat unread s =
        (((Part.entry p k).addr t n, dirty),
          unread.drop ((Part.entry p k).missing s n).length, t) ∧
      Grows sb s n ((Part.entry p k).missing s n) t n ∧ (Part.entry p k).addr t n ≠ 0 := by
  have haddr := Part.addr_entry hne k
  unfold addrEntryBlock
  rw [flat_bind, flat_read]
  by_cases hzero : Bytes.word (s (p.addr s n)) k = 0
  · have habsent := haddr.trans hzero
    rw [Part.missing_eq_single habsent, List.length_singleton] at hfree hsupply ⊢
    obtain ⟨x, rest, rfl, hx, _⟩ := hsupply.cases
    obtain ⟨b, hb, halloc⟩ := allocDataBlock_flat undef (some x :: rest) hr hfree
    have hadds := adds_entryBlock hr hok hb hp hne hk habsent hx
    have hnew := hadds.addr_eq _ hadds.ok
    rw [if_pos rfl] at hnew
    refine ⟨_, true, ?_, hadds.grows, ?_⟩
    · rw [if_neg (not_not.mpr hzero), flat_bind, halloc, hnew]
      simp only [flat_bind, flat_read, flat_write, flat_blockGet, flat_pure,
        word_written hr hb hk, List.tail_cons, List.head?_cons, Option.join_some, List.drop_one,
        arrive_cleared]
    · rw [hnew]
      exact ne_zero_of_free hr hb
  · have hpresent : (Part.entry p k).addr s n ≠ 0 := haddr ▸ hzero
    rw [Part.missing_eq_nil hpresent]
    refine ⟨s, false, ?_, .nil, hpresent⟩
    rw [if_pos hzero, haddr]
    rfl

end Steps

/-! ## The way to a file block -/

/-- A file block that is there is found without a change. -/
theorem findDataBlock_flat_present {sb : SuperBlock} {s : BlockStore} {n : Inode} {offset : Nat}
    (undef : Nat) (unread : List (Option Block)) (hmax : offset / blockSize < maxFileBlocks)
    (h : (dataPart (offset / blockSize)).absent s n = []) :
    (findDataBlock sb undef n offset).flat unread s =
      (((dataPart (offset / blockSize)).addr s n, n.grow (offset / blockSize)), unread, s) := by
  unfold findDataBlock
  dsimp only
  rw [← absent_grow (i := offset / blockSize)] at h
  rw [← addr_grow (i := offset / blockSize)]
  generalize n.grow (offset / blockSize) = n at *
  by_cases hdirect : offset / blockSize < 10
  · rw [dataPart_direct hdirect, Part.absent_slot_eq_nil_iff] at h
    rw [dif_pos hdirect, if_neg h, dataPart_direct hdirect]
    rfl
  rw [dif_neg hdirect]
  by_cases hindirect : offset / blockSize < 10 + addrPerBlock
  · rw [dataPart_indirect hdirect hindirect, Part.absent_entry_eq_nil_iff,
      Part.absent_slot_eq_nil_iff] at h
    have hslot : (Part.slot 10).addr s n ≠ 0 := h.1
    rw [Part.addr_entry hslot] at h
    rw [if_pos hindirect, dataPart_indirect hdirect hindirect, Part.addr_entry hslot, flat_bind,
      addrBlock_flat_present undef unread h.1]
    have hentry : Bytes.word (s (n.addrs 10)) (offset / blockSize - 10) ≠ 0 := h.2
    dsimp only
    rw [flat_bind, addrEntry_flat_present undef unread hentry]
    rfl
  · have hdouble : offset / blockSize < 10 + addrPerBlock + addrPerBlock * addrPerBlock := hmax
    rw [dataPart_double hdirect hindirect, Part.absent_entry_eq_nil_iff,
      Part.absent_entry_eq_nil_iff, Part.absent_slot_eq_nil_iff] at h
    obtain ⟨⟨hslot, hparent⟩, hentry⟩ := h
    have hslot' : (Part.slot 11).addr s n ≠ 0 := hslot
    rw [Part.addr_entry hparent] at hentry
    rw [if_neg hindirect, if_pos hdouble, dataPart_double hdirect hindirect,
      Part.addr_entry hparent, flat_bind, addrBlock_flat_present undef unread hslot]
    rw [Part.addr_entry hslot'] at hparent hentry ⊢
    have hparent' : Bytes.word (s (n.addrs 11))
        ((offset / blockSize - 10 - addrPerBlock) / addrPerBlock) ≠ 0 := hparent
    have hentry' : Bytes.word (s (Bytes.word (s (n.addrs 11))
        ((offset / blockSize - 10 - addrPerBlock) / addrPerBlock)))
        ((offset / blockSize - 10 - addrPerBlock) % addrPerBlock) ≠ 0 := hentry
    dsimp only
    rw [flat_bind, addrEntryBlock_flat_present undef unread hparent']
    dsimp only
    rw [flat_bind, addrEntry_flat_present undef unread hentry']
    rfl

theorem CanReach.grow {sb : SuperBlock} {s : BlockStore} {n : Inode} {p : Part}
    {unread : List (Option Block)} (h : CanReach sb s n p unread) (i : Nat) :
    CanReach sb s (n.grow i) p unread := by
  constructor
  · rw [absent_grow]
    exact h.free
  · cases p with
    | slot a => exact h.supply
    | entry p k =>
      show Supply (p.absent s (n.grow i)).length unread
      rw [absent_grow]
      exact h.supply

section Way

variable {sb : SuperBlock} {s t u : BlockStore} {n m l : Inode} {k : Nat} {p : Part}
  {unread : List (Option Block)}

theorem Ensured.missing_eq (h : Ensured sb s n p t m) (hok : (Part.entry p k).Ok) :
    (Part.entry p k).missing t m = (Part.entry p k).missing s n := by
  unfold Part.missing
  rw [h.grows.addr_of_not_mem hok (Part.entry_not_mem_absent p k)]

/-- One level further down. -/
theorem Ensured.entry (h : Ensured sb s n p t m) (hok : (Part.entry p k).Ok)
    (hgrows : Grows sb t m ((Part.entry p k).missing t m) u l)
    (hne : (Part.entry p k).addr u l ≠ 0) : Ensured sb s n (.entry p k) u l where
  grows := h.grows.append (h.missing_eq hok ▸ hgrows)
  present := hne

/-- The blocks that are left suffice for the next level. -/
theorem Ensured.free_entry (h : Ensured sb s n p t m) (hok : (Part.entry p k).Ok)
    (hfree : ((Part.entry p k).absent s n).length ≤ (freeBlocks sb s).card) :
    ((Part.entry p k).missing t m).length ≤ (freeBlocks sb t).card := by
  have hcard := h.grows.card
  rw [Part.absent, List.length_append] at hfree
  rw [h.missing_eq hok]
  omega

theorem Supply.drop {a b : Nat} (h : Supply (a + b) unread) :
    Supply a unread ∧ Supply b (unread.drop a) := by
  induction a generalizing unread with
  | zero => exact ⟨trivial, by rwa [Nat.zero_add] at h⟩
  | succ a ih =>
    rw [Nat.add_right_comm] at h
    obtain ⟨x, rest, rfl, hx, hrest⟩ := h.cases
    exact ⟨⟨hx, (ih hrest).1⟩, (ih hrest).2⟩

theorem Ensured.addrEntry (undef : Nat) (unread : List (Option Block))
    (hr : Regions sb) (hok : FileOk sb s n) (h : Ensured sb s n p t m)
    (hpart : (Part.entry p k).Ok) (hdata : ¬ (Part.entry p k).IsIndex)
    (hfree : ((Part.entry p k).absent s n).length ≤ (freeBlocks sb s).card) :
    ∃ u dirty, (addrEntry sb undef (p.addr t m) k).flat unread t =
        (((Part.entry p k).addr u m, dirty), unread, u) ∧ Ensured sb s n (.entry p k) u m := by
  obtain ⟨u, dirty, hflat, hgrows, hne⟩ := addrEntry_flat undef unread hr
    (h.grows.fileOk hok) hpart.1 h.present hpart.2 hdata (h.free_entry hpart hfree)
  exact ⟨u, dirty, hflat, h.entry hpart hgrows hne⟩

theorem Ensured.addrEntryBlock (undef : Nat) (unread : List (Option Block))
    (hr : Regions sb) (hok : FileOk sb s n)
    (h : Ensured sb s n p t m) (hpart : (Part.entry p k).Ok)
    (hfree : ((Part.entry p k).absent s n).length ≤ (freeBlocks sb s).card)
    (hsupply : Supply ((Part.entry p k).missing s n).length unread) :
    ∃ u rest dirty, (addrEntryBlock sb undef (p.addr t m) k).flat unread t =
        (((Part.entry p k).addr u m, dirty), rest, u) ∧ Ensured sb s n (.entry p k) u m := by
  obtain ⟨u, dirty, hflat, hgrows, hne⟩ := addrEntryBlock_flat undef unread hr
    (h.grows.fileOk hok) hpart.1 h.present hpart.2 (h.free_entry hpart hfree)
    (h.missing_eq hpart ▸ hsupply)
  exact ⟨u, _, dirty, hflat, h.entry hpart hgrows hne⟩

/-- `find_data_block` answers the block of the part, which it makes sure of. -/
theorem findDataBlock_flat (undef : Nat) (unread : List (Option Block))
    (hr : Regions sb) {offset : Nat}
    (hold : FileOk sb s n) (hmax : offset / blockSize < maxFileBlocks)
    (hreach : CanReach sb s n (dataPart (offset / blockSize)) unread) :
    ∃ t m rest, (findDataBlock sb undef n offset).flat unread s =
        (((dataPart (offset / blockSize)).addr t m, m), rest, t) ∧
      Ensured sb s (n.grow (offset / blockSize)) (dataPart (offset / blockSize)) t m := by
  obtain ⟨hfree, hsupply⟩ := hreach.grow (offset / blockSize)
  have hok := hold.grow (offset / blockSize)
  have hpart := dataPart_ok hmax
  have hdata : ¬ (dataPart (offset / blockSize)).IsIndex := dataPart_not_index
  unfold findDataBlock
  dsimp only
  generalize n.grow (offset / blockSize) = n at *
  by_cases hdirect : offset / blockSize < 10
  · rw [dataPart_direct hdirect] at *
    rw [dif_pos hdirect]
    obtain ⟨t, m, hflat, h⟩ := directBlock_flat undef unread hr hok
      hfree hdata
    exact ⟨t, m, unread, hflat, h⟩
  rw [dif_neg hdirect]
  by_cases hindirect : offset / blockSize < 10 + addrPerBlock
  · rw [if_pos hindirect]
    rw [dataPart_indirect hdirect hindirect] at *
    have hlen := hfree
    rw [Part.absent, List.length_append] at hlen
    obtain ⟨t, m, hflat, h⟩ := addrBlock_flat (a := 10) undef unread hr hok (by omega) hsupply
    obtain ⟨u, dirty, hflat', h'⟩ := h.addrEntry undef
      (unread.drop ((Part.slot 10).absent s n).length) hr hok hpart hdata hfree
    refine ⟨u, m, unread.drop ((Part.slot 10).absent s n).length, ?_, h'⟩
    rw [flat_bind, hflat]
    dsimp only
    rw [flat_bind, hflat']
    rfl
  · have hdouble : offset / blockSize < 10 + addrPerBlock + addrPerBlock * addrPerBlock := hmax
    rw [if_neg hindirect, if_pos hdouble]
    rw [dataPart_double hdirect hindirect] at *
    have hlen := hfree
    rw [Part.absent, Part.absent, List.length_append, List.length_append] at hlen
    have hfree' := hfree
    rw [Part.absent, List.length_append] at hfree'
    obtain ⟨hsupply, hsupply'⟩ : Supply _ _ ∧ Supply _ _ :=
      Supply.drop (by rw [← List.length_append]; exact hsupply)
    obtain ⟨t, m, hflat, h⟩ := addrBlock_flat (a := 11) undef unread hr hok (by omega) hsupply
    obtain ⟨u, rest, dirty, hflat', h'⟩ := h.addrEntryBlock undef _ hr hok hpart.1.ok
      (by omega) hsupply'
    obtain ⟨v, dirty', hflat'', h''⟩ := h'.addrEntry undef rest hr hok
      hpart hdata hfree
    refine ⟨v, m, rest, ?_, h''⟩
    rw [flat_bind, hflat]
    dsimp only
    rw [flat_bind, hflat']
    dsimp only
    rw [flat_bind, hflat'']
    rfl

end Way

end MipsOs.Fs
