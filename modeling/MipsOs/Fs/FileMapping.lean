import MipsOs.Fs.FileBlocks
import MipsOs.Fs.NewStore
import MipsOs.Lib.Run

/-!
# The block mapping of a file

The system is one open file on a flat store, next to the calls of
`find_data_block` that it has answered.  A call comes with an offset, with the
value of an uninitialised local, and with what two pages hold that arrive
without being read.

`OneToOne` says that the answers are a mapping of the file blocks: one block
each, free before it was answered, and in no other place of the file.
`file_blocks_one_to_one` is the result.  It holds in every run in which a new
block of addresses arrives in a page of zeros, but for the first word.  Any other
page lets the file use a block of somebody else (`stale_page_not_one_to_one`).
-/

namespace MipsOs.Fs

open MipsOs.Lib MipsOs.Lib.BlockProg

/-- A call that has been answered, with the store before it. -/
structure MapCall where
  offset : Nat
  answer : Nat
  before : BlockStore

/-- The block of the file that the call asks for. -/
def MapCall.iBlock (c : MapCall) : Nat := c.offset / blockSize

/-- A store, the inode copy of an open file, and the answers so far. -/
structure MapState where
  store : BlockStore
  inode : Inode
  calls : List MapCall

/-- `first` and `second` are the pages that arrive without being read. -/
structure MapOp where
  offset : Nat
  undef : Nat
  first : Block
  second : Block

/-- The contents of the pages that arrive, in the order of the calls of `block_get`. -/
def MapOp.unread (op : MapOp) : List (Option Block) := [some op.first, some op.second]

/-- The part of the file that the call asks for. -/
def MapOp.part (op : MapOp) : Part := dataPart (op.offset / blockSize)

namespace FileMapping

section Defs

variable (sb : SuperBlock)

/-- One call of `find_data_block`. -/
def step (st : MapState) (op : MapOp) : Option MapState :=
  let r := (findDataBlock sb op.undef st.inode op.offset).flat op.unread st.store
  some
    { store := r.2.2
      inode := r.1.2
      calls := st.calls ++ [{ offset := op.offset, answer := r.1.1, before := st.store }] }

/-- No call has been made. -/
def start (store : BlockStore) (inode : Inode) : MapState where
  store := store
  inode := inode
  calls := []

/-- The offset is an `int` that is not negative, and there are as many free
blocks as the call takes. -/
structure Enough (st : MapState) (op : MapOp) : Prop where
  offset_lt : op.offset < 2 ^ 31
  free : (op.part.absent st.store st.inode).length ≤ (freeBlocks sb st.store).card

/-- The pages in which new blocks of addresses arrive hold zeros behind their
first word. -/
def BlankPages (st : MapState) (op : MapOp) : Prop :=
  Supply (newIndexes st.store st.inode op.part) op.unread

/-- The answers are a one-to-one mapping of the file blocks. -/
structure OneToOne (st : MapState) : Prop where
  same_iff : ∀ c ∈ st.calls, ∀ d ∈ st.calls, c.answer = d.answer ↔ c.iBlock = d.iBlock
  was_free : ∀ earlier c later, st.calls = earlier ++ c :: later →
    (∀ d ∈ earlier, d.answer ≠ c.answer) → c.answer ∈ freeBlocks sb c.before
  alone : ∀ c ∈ st.calls, ∀ p : Part, p.Ok → p.addr st.store st.inode = c.answer →
    p = dataPart c.iBlock

/-- What holds in every state of a run. -/
structure Inv (st : MapState) : Prop where
  fileOk : FileOk sb st.store st.inode
  answered : ∀ c ∈ st.calls, c.iBlock < maxFileBlocks ∧ c.answer ≠ 0 ∧
    c.answer = (dataPart c.iBlock).addr st.store st.inode
  asked : ∀ i < maxFileBlocks, (dataPart i).addr st.store st.inode ≠ 0 →
    ∃ c ∈ st.calls, c.iBlock = i
  was_free : ∀ earlier c later, st.calls = earlier ++ c :: later →
    (∀ d ∈ earlier, d.answer ≠ c.answer) → c.answer ∈ freeBlocks sb c.before

end Defs

section Runs

variable {sb : SuperBlock} {st st' : MapState} {op : MapOp}

/-- Every offset is inside the largest file. -/
theorem Enough.lt_max (h : Enough sb st op) : op.offset / blockSize < maxFileBlocks := by
  have hlt := h.offset_lt
  unfold maxFileBlocks addrPerBlock blockSize
  omega

/-- What one call does. -/
theorem step_cases (hr : Regions sb) (hok : FileOk sb st.store st.inode) (henough : Enough sb st op)
    (hblank : BlankPages st op) (hstep : step sb st op = some st') :
    Ensured sb st.store (st.inode.grow (op.offset / blockSize)) op.part st'.store st'.inode ∧
      st'.calls = st.calls ++
        [{ offset := op.offset
           answer := op.part.addr st'.store st'.inode
           before := st.store }] := by
  obtain ⟨t, m, rest, hflat, h⟩ := findDataBlock_flat op.undef op.unread hr hok henough.lt_max
    ⟨henough.free, hblank⟩
  have hst := Option.some.inj hstep
  rw [hflat] at hst
  subst hst
  exact ⟨h, rfl⟩

/-- A file block that is not asked for keeps its block. -/
theorem addr_other {s t : BlockStore} {n m : Inode} {i j : Nat} (hi : i < maxFileBlocks)
    (hj : j < maxFileBlocks) (hne : j ≠ i) (h : Ensured sb s (n.grow i) (dataPart i) t m) :
    (dataPart j).addr t m = (dataPart j).addr s n := by
  rw [h.grows.addr_of_not_mem (dataPart_ok hj), addr_grow]
  intro hmem
  rcases Part.eq_or_index_of_mem_absent (dataPart_ok hi) hmem with heq | hindex
  · exact hne (dataPart_injective heq)
  · exact dataPart_not_index hindex

/-- A part that has a block keeps it. -/
theorem addr_kept {s t : BlockStore} {n m : Inode} {i : Nat} {p q : Part} (hq : q.Ok)
    (hne : q.addr s n ≠ 0) (h : Ensured sb s (n.grow i) p t m) : q.addr t m = q.addr s n := by
  rw [← addr_grow (n := n) (i := i)] at hne ⊢
  exact h.grows.addr_of_ne_zero hq hne

/-- An answer that no earlier call has got was free before. -/
theorem new_free {s t : BlockStore} {n m : Inode} {i : Nat} {calls : List MapCall}
    (hanswered : ∀ c ∈ calls, c.answer = (dataPart c.iBlock).addr s n)
    (hasked : (dataPart i).addr s n ≠ 0 → ∃ c ∈ calls, c.iBlock = i) (hi : i < maxFileBlocks)
    (h : Ensured sb s (n.grow i) (dataPart i) t m)
    (hfirst : ∀ d ∈ calls, d.answer ≠ (dataPart i).addr t m) :
    (dataPart i).addr t m ∈ freeBlocks sb s := by
  by_cases hzero : (dataPart i).addr s n = 0
  · exact h.grows.addr_mem_free (dataPart_ok hi) ((addr_grow _).trans hzero) h.present
  · obtain ⟨c, hc, rfl⟩ := hasked hzero
    refine absurd ?_ (hfirst c hc)
    rw [hanswered c hc, addr_kept (dataPart_ok hi) hzero h]

/-- One call keeps the invariant. -/
theorem step_inv (hr : Regions sb) (hinv : Inv sb st) (henough : Enough sb st op)
    (hblank : BlankPages st op) (hstep : step sb st op = some st') : Inv sb st' := by
  obtain ⟨hok, hanswered, hasked, hfree⟩ := hinv
  obtain ⟨h, hcalls⟩ := step_cases hr hok henough hblank hstep
  have hi := henough.lt_max
  constructor
  · exact h.grows.fileOk (hok.grow _)
  · intro c hc
    rw [hcalls, List.mem_append, List.mem_singleton] at hc
    rcases hc with hc | rfl
    · obtain ⟨hlt, hne, hanswer⟩ := hanswered c hc
      refine ⟨hlt, hne, ?_⟩
      rw [addr_kept (dataPart_ok hlt) (hanswer ▸ hne) h, hanswer]
    · exact ⟨hi, h.present, rfl⟩
  · intro j hj hne
    rw [hcalls]
    by_cases hji : j = op.offset / blockSize
    · exact ⟨_, List.mem_append_right _ (List.mem_singleton_self _), hji.symm⟩
    · rw [addr_other hi hj hji h] at hne
      obtain ⟨c, hc, hblock⟩ := hasked j hj hne
      exact ⟨c, List.mem_append_left _ hc, hblock⟩
  · intro earlier c later hsplit hfirst
    rw [hcalls] at hsplit
    rcases List.eq_nil_or_concat later with rfl | ⟨later, d, rfl⟩
    · obtain ⟨rfl, hlast⟩ := List.append_inj' hsplit rfl
      obtain rfl := (List.cons.inj hlast).1
      exact new_free (fun d hd => (hanswered d hd).2.2) (hasked _ hi) hi h hfirst
    · rw [List.concat_eq_append, ← List.cons_append, ← List.append_assoc] at hsplit
      exact hfree earlier c later (List.append_inj_left' hsplit rfl) hfirst

theorem start_inv {s : BlockStore} {n : Inode} (hzero : ∀ a, n.addrs a = 0) :
    Inv sb (start s n) where
  fileOk := fileOk_empty hzero
  answered c hc := by cases hc
  asked i _ hne := absurd (addr_empty hzero _) hne
  was_free earlier c later h :=
    absurd h.symm (List.append_ne_nil_of_right_ne_nil _ (List.cons_ne_nil c later))

theorem Inv.oneToOne (h : Inv sb st) : OneToOne sb st := by
  obtain ⟨hok, hanswered, _, hfree⟩ := h
  refine ⟨?_, hfree, ?_⟩
  · intro c hc d hd
    obtain ⟨hclt, hcne, hcanswer⟩ := hanswered c hc
    obtain ⟨hdlt, hdne, hdanswer⟩ := hanswered d hd
    constructor
    · intro heq
      apply dataPart_injective
      apply hok.inj _ _ (dataPart_ok hclt) (dataPart_ok hdlt) (hcanswer ▸ hcne)
      rw [← hcanswer, ← hdanswer, heq]
    · intro heq
      rw [hcanswer, hdanswer, heq]
  · intro c hc p hp heq
    obtain ⟨hlt, hne, hanswer⟩ := hanswered c hc
    exact hok.inj p _ hp (dataPart_ok hlt) (heq ▸ hne) (heq.trans hanswer)

end Runs

/-- In every run in which new blocks of addresses arrive in blank pages, the answers
of `find_data_block` are a one-to-one mapping of the file blocks. -/
theorem file_blocks_one_to_one {sb : SuperBlock} (hr : Regions sb) (store : BlockStore)
    (inode : Inode) (hzero : ∀ a, inode.addrs a = 0) {st : MapState}
    (h : Reaches (step sb) (fun st op => Enough sb st op ∧ BlankPages st op)
      (start store inode) st) : OneToOne sb st := by
  have hinv : Inv sb st := h.invariant (Inv sb) (start_inv hzero)
    fun a op b ha hok hstep => step_inv hr ha hok.1 hok.2 hstep
  exact hinv.oneToOne

/-! ## A new partition of 1024 blocks -/

/-- An inode without addresses. -/
def emptyInode : Inode := { type := typeFile, nLinks := 1, size := 0, addrs := fun _ => 0 }

/-- The store of a new partition of 1024 blocks. -/
def smallStore : BlockStore := newStore (setupSuperBlock 8192) fun _ => zeroBlock

theorem smallStore_free : {517, 518} ⊆ freeBlocks (setupSuperBlock 8192) smallStore := by
  intro b hb
  rw [Finset.mem_insert, Finset.mem_singleton] at hb
  have hlt : b < (setupSuperBlock 8192).size := by
    rcases hb with rfl | rfl <;> decide
  have hgt : (setupSuperBlock 8192).dataStart < b := by
    rcases hb with rfl | rfl <;> decide
  have hbits : b < bitsPerBlock := by
    rcases hb with rfl | rfl <;> decide
  rw [mem_freeBlocks, smallStore, blockUsed_newStore (regions_setup (by decide)) hbits hlt]
  omega

theorem blank_zeroBlock : Blank zeroBlock := by
  intro k _ _
  have hget : ∀ i, Bytes.get zeroBlock i = 0 := by
    intro i
    unfold Bytes.get
    split <;> rfl
  simp [Bytes.word, hget]

/-- An entry of the first block of addresses of an empty file. -/
theorem absent_emptyInode (s : BlockStore) (k : Nat) :
    (Part.entry (.slot 10) k).absent s emptyInode = [.slot 10, .entry (.slot 10) k] := by
  have hslot : (Part.slot 10).addr s emptyInode = 0 := rfl
  have hentry : (Part.entry (.slot 10) k).addr s emptyInode = 0 := if_pos hslot
  rw [Part.absent, Part.absent, Part.missing_eq_single hslot, Part.missing_eq_single hentry]
  rfl

/-- The call for block 11, the second behind the first block of addresses. -/
def secondEntry (first : Block) : MapOp :=
  { offset := 45056, undef := 0, first := first, second := zeroBlock }

theorem enough_secondEntry (first : Block) :
    Enough (setupSuperBlock 8192) (start smallStore emptyInode) (secondEntry first) where
  offset_lt := show 45056 < 2 ^ 31 by decide
  free := by
    have hpart : dataPart (45056 / blockSize) = .entry (.slot 10) 1 := rfl
    show ((dataPart (45056 / blockSize)).absent smallStore emptyInode).length ≤
      (freeBlocks (setupSuperBlock 8192) smallStore).card
    rw [hpart, absent_emptyInode]
    exact Finset.card_le_card smallStore_free

/-- In a page of zeros. -/
theorem empty_file_one_to_one :
    ∃ st, step (setupSuperBlock 8192) (start smallStore emptyInode) (secondEntry zeroBlock) =
        some st ∧ OneToOne (setupSuperBlock 8192) st := by
  refine ⟨_, rfl, ?_⟩
  apply file_blocks_one_to_one (regions_setup (by decide)) smallStore emptyInode (fun _ => rfl)
  exact (Reaches.refl _).snoc
    ⟨enough_secondEntry zeroBlock, blank_zeroBlock, trivial⟩ rfl

/-! ## Pages that are not blank -/

/-- A word behind the first of the page that a new block of addresses comes in is
answered as a block of the file. -/
theorem stale_entry_answered {sb : SuperBlock} {s : BlockStore} {n : Inode}
    (undef offset : Nat) (x : Block) (rest : List (Option Block)) (hr : Regions sb)
    (hfree : 0 < (freeBlocks sb s).card) (hi : 10 < offset / blockSize)
    (hlt : offset / blockSize < 10 + addrPerBlock) (habsent : n.addrs 10 = 0)
    (hstale : Bytes.word x (offset / blockSize - 10) ≠ 0) :
    ((findDataBlock sb undef n offset).flat (some x :: rest) s).1.1 =
      Bytes.word x (offset / blockSize - 10) := by
  have hslot : (n.grow (offset / blockSize)).addrs 10 = 0 := habsent
  have hword : Bytes.word (clearFirst x) (offset / blockSize - 10) =
      Bytes.word x (offset / blockSize - 10) := Bytes.word_setWord_of_ne _ (by omega) _
  obtain ⟨b, hb, hflat⟩ := addrBlock_flat_new undef x rest hr hfree hslot
  unfold findDataBlock
  dsimp only
  rw [dif_neg (by omega), if_pos hlt, flat_bind, hflat]
  dsimp only
  rw [flat_bind, addrEntry_flat_present undef rest]
  · rw [Function.update_self]
    exact hword
  · rw [Function.update_self, hword]
    exact hstale

/-- A page whose second word is the number of the directory block of the root. -/
def stalePage : Block := Bytes.setWord zeroBlock 1 516

/-- The answer to the first call was free. -/
theorem OneToOne.first_free {sb : SuperBlock} {s : BlockStore} {n : Inode} {op : MapOp}
    {st : MapState} (h : OneToOne sb st) (hstep : step sb (start s n) op = some st) :
    ((findDataBlock sb op.undef n op.offset).flat op.unread s).1.1 ∈ freeBlocks sb s := by
  have hst := Option.some.inj hstep
  have hcalls : st.calls = [] ++ { offset := op.offset, answer :=
      ((findDataBlock sb op.undef n op.offset).flat op.unread s).1.1, before := s } :: [] := by
    rw [← hst]
    rfl
  have hfree := h.was_free [] _ [] hcalls (fun d hd => absurd hd List.not_mem_nil)
  exact hfree

/-- With that page the file gets the directory block of the root. -/
theorem stale_page_not_one_to_one :
    ¬ ∀ (sb : SuperBlock) (store : BlockStore) (inode : Inode) (st : MapState), Regions sb →
      (∀ a, inode.addrs a = 0) → Reaches (step sb) (Enough sb) (start store inode) st →
      OneToOne sb st := by
  intro h
  have hr : Regions (setupSuperBlock 8192) := regions_setup (by decide)
  obtain ⟨st, hstep⟩ : ∃ st, step (setupSuperBlock 8192) (start smallStore emptyInode)
      (secondEntry stalePage) = some st := ⟨_, rfl⟩
  have hone := h _ smallStore emptyInode _ hr (fun _ => rfl)
    ((Reaches.refl _).snoc (enough_secondEntry stalePage) hstep)
  have hfree := hone.first_free hstep
  have hword : Bytes.word (secondEntry stalePage).first
      ((secondEntry stalePage).offset / blockSize - 10) = 516 :=
    Bytes.word_setWord_same _ (by decide) (by decide)
  rw [MapOp.unread, stale_entry_answered _ _ _ _ hr, hword] at hfree
  · have hused : BlockUsed (setupSuperBlock 8192) smallStore 516 :=
      (blockUsed_newStore hr (by decide) (by decide)).mpr (by decide)
    exact (mem_freeBlocks.mp hfree).2 hused
  · exact Finset.card_pos.mpr ⟨517, smallStore_free (by decide)⟩
  · decide
  · decide
  · rfl
  · rw [hword]
    decide

end FileMapping

end MipsOs.Fs
