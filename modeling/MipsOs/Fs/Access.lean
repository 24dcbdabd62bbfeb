import MipsOs.Fs.Cache

/-!
# Accesses through the block cache

`Coherent dom extra c changed own store` relates the cache to a store that
has one content for every block of every partition.  The ghost `own` names,
for every buffer, the partition that was mounted when the buffer was loaded,
`changed` are the pages that callers have written and not committed yet, and
`dom` are the blocks in play.  The invariant says three things: a page holds
the content of its block, a block without pending changes has its content on
the card, and a page with pending changes belongs to the mounted partition.

`blockGet_coherent`, `Coherent.write`, `blockCommit_coherent` and
`blockSink_coherent` carry the invariant through the operations, and
`Coherent.card_eq` reads the card after a flush.

An access is one `block_get`, a change of the page it returns, and one
`block_commit`.  This is the way in which the file system uses the cache
when it holds one buffer at a time; `access_coherent` puts the lemmas of the
three together.
-/

namespace MipsOs.Fs

open MipsOs.Mm

/-- Overwrite a page. -/
def Cache.poke (c : Cache) (page : Nat) (x : Block) : Cache :=
  { c with mem := Function.update c.mem page x }

/-- `block_get`, a change of the page in place, `block_commit`.  The answer
holds the content that the access saw. -/
def access (c : Cache) (blockId : Nat) (doRead : Bool) (f : Block → Block)
    (doWrite : Bool) : Option (Block × Cache) := do
  let (page, c) ← blockGet c blockId doRead
  let seen := c.mem page
  return (seen, blockCommit (c.poke page (f seen)) page doWrite)

/-! ## `block_commit` and `block_sink` -/

/-- With different pages in the buffers, a commit finds the buffer of its
page. -/
theorem blockCommit_eq {c : Cache} {i : Fin diskBuffSize} {doWrite : Bool}
    (hinj : ∀ j, (c.buff j).page = (c.buff i).page → j = i) :
    blockCommit c (c.buff i).page doWrite =
      c.setBuff i { c.buff i with dirty := doWrite || (c.buff i).dirty, inUse := false } := by
  unfold blockCommit
  cases hfind : (List.finRange diskBuffSize).find?
      fun j => (c.buff j).page = (c.buff i).page with
  | none =>
    have := List.find?_eq_none.mp hfind i (List.mem_finRange i)
    simp at this
  | some j =>
    have hj : (c.buff j).page = (c.buff i).page := by simpa using List.find?_some hfind
    obtain rfl := hinj j hj
    rfl

namespace Cache

variable (c : Cache) (i j : Fin diskBuffSize)

@[simp] theorem sinkBuff_mem : (c.sinkBuff i).mem = c.mem := by
  unfold sinkBuff
  split <;> rfl

@[simp] theorem sinkBuff_table : (c.sinkBuff i).table = c.table := by
  unfold sinkBuff
  split <;> rfl

@[simp] theorem sinkBuff_currentPartition :
    (c.sinkBuff i).currentPartition = c.currentPartition := by
  unfold sinkBuff
  split <;> rfl

/-- One round of the flush clears one dirty flag. -/
theorem sinkBuff_buff :
    (c.sinkBuff i).buff j =
      { c.buff j with dirty := (c.buff j).dirty && decide (j ≠ i) } := by
  unfold sinkBuff
  rcases eq_or_ne j i with rfl | hne
  · split <;> simp_all
    rename_i h
    rw [← h]
  · split <;> simp [hne]

theorem sinkBuff_card :
    (c.sinkBuff i).card =
      if (c.buff i).dirty then
        blockWrite c.table c.card c.currentPartition (c.buff i).blockId
          (c.mem (c.buff i).page)
      else
        c.card := by
  unfold sinkBuff
  split <;> rfl

end Cache

/-- The flush loop over a list of buffers. -/
theorem foldl_sinkBuff (is : List (Fin diskBuffSize)) (c : Cache) :
    (is.foldl Cache.sinkBuff c).mem = c.mem ∧
      (is.foldl Cache.sinkBuff c).table = c.table ∧
      (is.foldl Cache.sinkBuff c).currentPartition = c.currentPartition ∧
      ∀ j, (is.foldl Cache.sinkBuff c).buff j =
        { c.buff j with dirty := (c.buff j).dirty && decide (j ∉ is) } := by
  induction is generalizing c with
  | nil => simp
  | cons i rest ih =>
    obtain ⟨hmem, htable, hpart, hbuff⟩ := ih (c.sinkBuff i)
    rw [List.foldl_cons]
    refine ⟨by rw [hmem, c.sinkBuff_mem], by rw [htable, c.sinkBuff_table],
      by rw [hpart, c.sinkBuff_currentPartition], fun j => ?_⟩
    rw [hbuff, c.sinkBuff_buff]
    by_cases h1 : j = i <;> by_cases h2 : j ∈ rest <;> simp [h1, h2]

/-- A flush leaves everything but the card and the dirty flags. -/
theorem blockSink_frame (c : Cache) :
    (blockSink c).mem = c.mem ∧ (blockSink c).table = c.table ∧
      (blockSink c).currentPartition = c.currentPartition ∧
      ∀ j, (blockSink c).buff j = { c.buff j with dirty := false } := by
  obtain ⟨hmem, htable, hpart, hbuff⟩ :=
    foldl_sinkBuff (List.finRange diskBuffSize) c
  refine ⟨hmem, htable, hpart, fun j => ?_⟩
  rw [blockSink, hbuff j]
  simp

/-- A flush does not touch a block that is separate from every dirty one. -/
theorem blockRead_foldl_sink_of_separate {q : Fin 4} {b : Nat}
    (is : List (Fin diskBuffSize)) (c : Cache)
    (hsep : ∀ i ∈ is, (c.buff i).dirty = true →
      Separate c.table c.currentPartition (c.buff i).blockId q b) :
    blockRead c.table (is.foldl Cache.sinkBuff c).card q b =
      blockRead c.table c.card q b := by
  induction is generalizing c with
  | nil => rfl
  | cons i rest ih =>
    have hrest := ih (c.sinkBuff i) (by
      intro j hj hdirty
      rw [c.sinkBuff_buff] at hdirty ⊢
      rw [c.sinkBuff_table, c.sinkBuff_currentPartition]
      exact hsep j (List.mem_cons_of_mem _ hj) (by simp at hdirty; exact hdirty.1))
    rw [c.sinkBuff_table] at hrest
    rw [List.foldl_cons, hrest, c.sinkBuff_card]
    split
    · rename_i hdirty
      exact blockRead_blockWrite_of_separate
        (hsep i (List.mem_cons_self ..) hdirty) _ _
    · rfl

/-- A flush writes a dirty page that no other dirty page overlaps. -/
theorem blockRead_foldl_sink_dirty {i : Fin diskBuffSize}
    (is : List (Fin diskBuffSize)) (c : Cache) (hmem : i ∈ is)
    (hdirty : (c.buff i).dirty = true)
    (hsep : ∀ j ∈ is, j ≠ i → (c.buff j).dirty = true →
      Separate c.table c.currentPartition (c.buff j).blockId
        c.currentPartition (c.buff i).blockId) :
    blockRead c.table (is.foldl Cache.sinkBuff c).card c.currentPartition
      (c.buff i).blockId = c.mem (c.buff i).page := by
  induction is generalizing c with
  | nil => simp at hmem
  | cons k rest ih =>
    rw [List.foldl_cons]
    rcases eq_or_ne k i with rfl | hne
    · have hrest := blockRead_foldl_sink_of_separate (q := c.currentPartition)
        (b := (c.buff k).blockId) rest (c.sinkBuff k) (by
          intro j hj hdj
          rw [c.sinkBuff_buff] at hdj ⊢
          simp only [Bool.and_eq_true, decide_eq_true_eq] at hdj
          rw [c.sinkBuff_table, c.sinkBuff_currentPartition]
          exact hsep j (List.mem_cons_of_mem _ hj) hdj.2 hdj.1)
      rw [c.sinkBuff_table] at hrest
      rw [hrest, c.sinkBuff_card, if_pos hdirty, blockRead_blockWrite_same]
    · have hmem' : i ∈ rest := by
        rcases List.mem_cons.mp hmem with h | h
        · exact absurd h.symm hne
        · exact h
      have hrest := ih (c.sinkBuff k) hmem'
        (by rw [c.sinkBuff_buff]; simp [hdirty, Ne.symm hne]) (by
          intro j hj hji hdj
          rw [c.sinkBuff_buff] at hdj ⊢
          simp only [Bool.and_eq_true] at hdj
          rw [c.sinkBuff_table, c.sinkBuff_currentPartition, c.sinkBuff_buff]
          exact hsep j (List.mem_cons_of_mem _ hj) hji hdj.1)
      rw [c.sinkBuff_table, c.sinkBuff_currentPartition, c.sinkBuff_buff,
        c.sinkBuff_mem] at hrest
      exact hrest

/-! ## The cache and the store behind it -/

/-- A content for every block of every partition. -/
abbrev Store := Fin 4 → Nat → Block

/-- Store one block. -/
def Store.set (store : Store) (p : Fin 4) (b : Nat) (x : Block) : Store :=
  fun q d => if q = p ∧ d = b then x else store q d

@[simp] theorem Store.set_self (store : Store) (p : Fin 4) (b : Nat) (x : Block) :
    store.set p b x p b = x := by
  simp [Store.set]

theorem Store.set_of_ne (store : Store) {p q : Fin 4} {b d : Nat} (x : Block)
    (h : ¬ (q = p ∧ d = b)) : store.set p b x q d = store q d := by
  simp [Store.set, h]

theorem Store.set_eq_self (store : Store) (p : Fin 4) (b : Nat) :
    store.set p b (store p b) = store := by
  funext q d
  by_cases h : q = p ∧ d = b
  · obtain ⟨rfl, rfl⟩ := h
    simp
  · exact store.set_of_ne _ h

@[simp] theorem Store.set_set (store : Store) (p : Fin 4) (b : Nat) (x y : Block) :
    (store.set p b x).set p b y = store.set p b y := by
  funext q d
  simp only [Store.set]
  split_ifs <;> rfl

/-- The blocks of `dom` share no byte of the card. -/
def SeparateOn (table : PartitionTable) (dom : Fin 4 → Nat → Prop) : Prop :=
  ∀ p b q d, dom p b → dom q d → ¬ (q = p ∧ d = b) → Separate table p b q d

/-- The page of the buffer has content that its block on the card may lack. -/
def Cache.Pending (c : Cache) (changed : Finset Nat) (i : Fin diskBuffSize) : Prop :=
  (c.buff i).dirty = true ∨ (c.buff i).page ∈ changed

/-- The cache against the store.  The pages `changed` have been written and
not been committed yet. -/
structure Coherent (dom : Fin 4 → Nat → Prop) (extra : Finset Nat) (c : Cache)
    (changed : Finset Nat) (own : Fin diskBuffSize → Fin 4) (store : Store) : Prop where
  wf : c.Wf extra
  empty : ∀ i, (c.buff i).page = 0 → (c.buff i).dirty = false
  held : ∀ i, (c.buff i).page ≠ 0 → dom (own i) (c.buff i).blockId
  content : ∀ i, (c.buff i).page ≠ 0 →
    c.mem (c.buff i).page = store (own i) (c.buff i).blockId
  mounted : ∀ i, c.Pending changed i → own i = c.currentPartition
  clean : ∀ p b, dom p b →
    (∀ i, (c.buff i).page ≠ 0 → own i = p → (c.buff i).blockId = b →
      ¬ c.Pending changed i) →
    blockRead c.table c.card p b = store p b
  changed_pages : changed ⊆ c.pages

section Coherence

variable {dom : Fin 4 → Nat → Prop} {extra changed : Finset Nat} {c c' : Cache}
  {own : Fin diskBuffSize → Fin 4} {store : Store}

theorem Coherent.zero_notMem_changed (h : Coherent dom extra c changed own store) :
    0 ∉ changed :=
  fun hmem => (Cache.mem_pages.mp (h.changed_pages hmem)).1 rfl

/-- An empty buffer has nothing to write back. -/
theorem Coherent.not_pending_of_empty (h : Coherent dom extra c changed own store)
    {i : Fin diskBuffSize} (hpage : (c.buff i).page = 0) : ¬ c.Pending changed i := by
  rintro (hdirty | hmem)
  · rw [h.empty i hpage] at hdirty
    exact absurd hdirty (by decide)
  · exact h.zero_notMem_changed (hpage ▸ hmem)

/-- A page without pending changes agrees with the card. -/
theorem Coherent.clean_page (h : Coherent dom extra c changed own store)
    {i : Fin diskBuffSize} (hpage : (c.buff i).page ≠ 0)
    (hpending : ¬ c.Pending changed i) :
    c.mem (c.buff i).page = blockRead c.table c.card (own i) (c.buff i).blockId := by
  rw [h.content i hpage, h.clean _ _ (h.held i hpage)]
  intro j hj _ hblock
  obtain rfl := h.wf.block_inj j i hj hpage hblock
  exact hpending

/-- The invariant does not read the marks `disk_buff_using`, nor the pages of
other owners. -/
theorem Coherent.congr {extra' : Finset Nat} (h : Coherent dom extra c changed own store)
    (hwf : c'.Wf extra') (htable : c'.table = c.table)
    (hpart : c'.currentPartition = c.currentPartition) (hcard : c'.card = c.card)
    (hmem : ∀ a ∈ c.pages, c'.mem a = c.mem a)
    (hbuff : ∀ i, (c'.buff i).page = (c.buff i).page ∧
      (c'.buff i).dirty = (c.buff i).dirty ∧ (c'.buff i).blockId = (c.buff i).blockId) :
    Coherent dom extra' c' changed own store := by
  have hpages : c'.pages = c.pages := by
    simp only [Cache.pages, fun i => (hbuff i).1]
  have hpending : ∀ i, c'.Pending changed i ↔ c.Pending changed i := by
    intro i
    simp only [Cache.Pending, (hbuff i).1, (hbuff i).2.1]
  refine ⟨hwf, ?_, ?_, ?_, ?_, ?_, by rw [hpages]; exact h.changed_pages⟩
  · intro i
    rw [(hbuff i).1, (hbuff i).2.1]
    exact h.empty i
  · intro i
    rw [(hbuff i).1, (hbuff i).2.2]
    exact h.held i
  · intro i
    rw [(hbuff i).1, (hbuff i).2.2]
    intro hi
    rw [hmem _ (Cache.mem_pages.mpr ⟨hi, i, rfl⟩)]
    exact h.content i hi
  · intro i hi
    rw [hpart]
    exact h.mounted i ((hpending i).mp hi)
  · intro p b hdom hclean
    rw [htable, hcard]
    refine h.clean p b hdom fun i hi hip hib => ?_
    rw [← hpending]
    exact hclean i (by rw [(hbuff i).1]; exact hi) hip (by rw [(hbuff i).2.2]; exact hib)

/-- Another partition may be selected when nothing is pending. -/
theorem Coherent.select (h : Coherent dom extra c changed own store) {p : Fin 4}
    (hp : p = c.currentPartition ∨ ∀ i, ¬ c.Pending changed i) :
    Coherent dom extra { c with currentPartition := p } changed own store where
  wf := h.wf.congr rfl (fun _ => rfl) (fun _ => rfl)
  empty := h.empty
  held := h.held
  content := h.content
  mounted := by
    intro i hi
    rcases hp with rfl | hnone
    · exact h.mounted i hi
    · exact absurd hi (hnone i)
  clean := h.clean
  changed_pages := h.changed_pages

/-- A block that no buffer holds may be written on the card. -/
theorem Coherent.blockWrite (hsep : SeparateOn c.table dom)
    (h : Coherent dom extra c changed own store) {p : Fin 4} {b : Nat} (hdom : dom p b)
    (hnone : ∀ i, (c.buff i).page ≠ 0 → own i = p → (c.buff i).blockId ≠ b) (x : Block) :
    Coherent dom extra { c with card := Fs.blockWrite c.table c.card p b x } changed own
      (store.set p b x) where
  wf := h.wf.congr rfl (fun _ => rfl) (fun _ => rfl)
  empty := h.empty
  held := h.held
  content := by
    intro i hi
    rw [Store.set_of_ne]
    · exact h.content i hi
    · rintro ⟨hp, hb⟩
      exact hnone i hi hp hb
  mounted := h.mounted
  clean := by
    intro q d hqd hclean
    by_cases hthis : q = p ∧ d = b
    · obtain ⟨rfl, rfl⟩ := hthis
      rw [Store.set_self, blockRead_blockWrite_same]
    · rw [Store.set_of_ne _ _ hthis,
        blockRead_blockWrite_of_separate (hsep _ _ _ _ hdom hqd hthis)]
      exact h.clean q d hqd hclean
  changed_pages := h.changed_pages

/-- Marking a buffer as in use, or not, keeps the cache coherent. -/
theorem Coherent.setInUse (h : Coherent dom extra c changed own store)
    (i : Fin diskBuffSize) (inUse : Bool) :
    Coherent dom extra (c.setBuff i { c.buff i with inUse := inUse }) changed own store := by
  refine h.congr (h.wf.setFlags i inUse (c.buff i).dirty) rfl rfl rfl (fun _ _ => rfl)
    fun j => ?_
  rcases eq_or_ne j i with rfl | hne <;> simp [*]

/-- An eviction keeps the cache coherent: a dirty page goes to the block it
holds, and the other blocks are separate from that one. -/
theorem Coherent.evict (hsep : SeparateOn c.table dom)
    (h : Coherent dom extra c changed own store) {v : Fin diskBuffSize}
    (hv : (c.buff v).page ∉ changed) :
    Coherent dom extra (c.evict v) changed own store := by
  have hother : ∀ j, ((c.evict v).buff j).page ≠ 0 → j ≠ v := by
    rintro j hj rfl
    exact hj (c.evict_page_self j)
  have hpending : ∀ j, j ≠ v → ((c.evict v).Pending changed j ↔ c.Pending changed j) := by
    intro j hne
    simp only [Cache.Pending, c.evict_buff_of_ne hne]
  have hempty : ∀ i, ((c.evict v).buff i).page = 0 →
      ((c.evict v).buff i).dirty = false := by
    intro i hi
    rcases eq_or_ne i v with rfl | hne
    · simp only [Cache.evict, Cache.setBuff]
      split_ifs with hpage hdirty
      · simp
      · simp
      · exact h.empty i (by simpa using hpage)
    · rw [c.evict_buff_of_ne hne] at hi ⊢
      exact h.empty i hi
  refine ⟨h.wf.evict v, hempty, ?_, ?_, ?_, ?_, ?_⟩
  · intro i hi
    have hne := hother i hi
    rw [c.evict_buff_of_ne hne] at hi ⊢
    exact h.held i hi
  · intro i hi
    have hne := hother i hi
    rw [c.evict_buff_of_ne hne] at hi ⊢
    rw [c.evict_mem]
    exact h.content i hi
  · intro i hi
    rw [c.evict_currentPartition]
    rcases eq_or_ne i v with rfl | hne
    · have hzero := c.evict_page_self i
      rcases hi with hdirty | hmem
      · rw [hempty i hzero] at hdirty
        exact absurd hdirty (by decide)
      · exact absurd (hzero ▸ hmem) h.zero_notMem_changed
    · exact h.mounted i ((hpending i hne).mp hi)
  · intro p b hdom hclean
    have hclean' : ∀ i, i ≠ v → (c.buff i).page ≠ 0 → own i = p →
        (c.buff i).blockId = b → ¬ c.Pending changed i := by
      intro i hne hi
      have := hclean i
      rw [hpending i hne, c.evict_buff_of_ne hne] at this
      exact this hi
    rw [c.evict_table, c.evict_card]
    split_ifs with hdirty
    · obtain ⟨hpage, hdirty⟩ := hdirty
      have hown := h.mounted v (Or.inl hdirty)
      by_cases hthis : p = c.currentPartition ∧ b = (c.buff v).blockId
      · obtain ⟨rfl, rfl⟩ := hthis
        rw [blockRead_blockWrite_same, h.content v hpage, hown]
      · rw [blockRead_blockWrite_of_separate]
        · refine h.clean p b hdom fun i hi hip hib => ?_
          rcases eq_or_ne i v with rfl | hne
          · exact absurd ⟨hip.symm.trans hown, hib.symm⟩ hthis
          · exact hclean' i hne hi hip hib
        · exact hsep _ _ _ _ (hown ▸ h.held v hpage) hdom hthis
    · refine h.clean p b hdom fun i hi hip hib => ?_
      rcases eq_or_ne i v with rfl | hne
      · rintro (hd | hmem)
        · exact hdirty ⟨hi, hd⟩
        · exact hv hmem
      · exact hclean' i hne hi hip hib
  · intro a ha
    rw [Cache.pages_evict h.wf v, Finset.mem_erase]
    exact ⟨fun heq => hv (heq ▸ ha), h.changed_pages ha⟩

/-- Loading the block `b` into an empty buffer keeps the cache coherent.  The
page holds the stored content when it was read from the card; otherwise its
content is now the content of the block. -/
theorem Coherent.load (h : Coherent dom extra c changed own store)
    {v : Fin diskBuffSize} {b : Nat} (doRead : Bool) (hempty : (c.buff v).page = 0)
    (hfresh : ∀ j, (c.buff j).page ≠ 0 → (c.buff j).blockId ≠ b)
    (hdom : dom c.currentPartition b) :
    Coherent dom extra (c.load v b doRead) changed
        (Function.update own v c.currentPartition)
        (store.set c.currentPartition b ((c.load v b doRead).mem c.newPage)) ∧
      (doRead = true → (c.load v b doRead).mem c.newPage = store c.currentPartition b) := by
  obtain ⟨hnewZero, hnewFresh⟩ := h.wf.newPage_fresh
  have hnewPages : c.newPage ∉ c.pages := fun hin => hnewFresh (Finset.mem_union_right _ hin)
  have hnewChanged : c.newPage ∉ changed := fun hin => hnewPages (h.changed_pages hin)
  have hnewOther : ∀ j, (c.buff j).page ≠ c.newPage := by
    intro j heq
    exact hnewPages (Cache.mem_pages.mpr ⟨hnewZero, j, heq⟩)
  have hread : doRead = true →
      (c.load v b doRead).mem c.newPage = store c.currentPartition b := by
    rintro rfl
    rw [c.load_mem, if_pos rfl, Function.update_self]
    exact h.clean _ _ hdom fun i hi _ hib => absurd hib (hfresh i hi)
  have hmem : ∀ a, a ≠ c.newPage → (c.load v b doRead).mem a = c.mem a := by
    intro a hne
    rw [c.load_mem]
    split
    · rw [Function.update_of_ne hne]
    · rfl
  refine ⟨⟨h.wf.load hempty hfresh doRead, ?_, ?_, ?_, ?_, ?_, ?_⟩, hread⟩
  · intro i hi
    rcases eq_or_ne i v with rfl | hne
    · rw [Cache.load_buff_self] at hi
      exact absurd hi hnewZero
    · rw [c.load_buff_of_ne b doRead hne] at hi ⊢
      exact h.empty i hi
  · intro i hi
    rcases eq_or_ne i v with rfl | hne
    · rw [Function.update_self, Cache.load_buff_self]
      exact hdom
    · rw [c.load_buff_of_ne b doRead hne] at hi ⊢
      rw [Function.update_of_ne hne]
      exact h.held i hi
  · intro i hi
    rcases eq_or_ne i v with rfl | hne
    · rw [Function.update_self, Cache.load_buff_self, Store.set_self]
    · rw [c.load_buff_of_ne b doRead hne] at hi ⊢
      rw [hmem _ (hnewOther i), Function.update_of_ne hne, h.content i hi, Store.set_of_ne]
      exact fun hthis => hfresh i hi hthis.2
  · intro i hi
    rw [c.load_currentPartition]
    rcases eq_or_ne i v with rfl | hne
    · rw [Function.update_self]
    · rw [Cache.Pending, c.load_buff_of_ne b doRead hne] at hi
      rw [Function.update_of_ne hne]
      exact h.mounted i hi
  · intro p d hpd hclean
    rw [c.load_table, c.load_card]
    by_cases hthis : p = c.currentPartition ∧ d = b
    · obtain ⟨rfl, rfl⟩ := hthis
      rw [Store.set_self]
      have hv := hclean v
      rw [Cache.Pending, Cache.load_buff_self] at hv
      cases doRead with
      | false => exact absurd (Or.inl rfl) (hv hnewZero (Function.update_self ..) rfl)
      | true =>
        rw [hread rfl]
        exact h.clean _ _ hdom fun i hi _ hid => absurd hid (hfresh i hi)
    · rw [Store.set_of_ne _ _ hthis]
      refine h.clean p d hpd fun i hi hip hid => ?_
      have hne : i ≠ v := by
        rintro rfl
        exact hi hempty
      have := hclean i
      rw [Cache.Pending, c.load_buff_of_ne b doRead hne, Function.update_of_ne hne] at this
      exact this hi hip hid
  · rw [Cache.pages_load hempty hnewZero b doRead]
    exact h.changed_pages.trans (Finset.subset_insert _ _)

/-- A write to a page of the mounted partition keeps the cache coherent. -/
theorem Coherent.write (h : Coherent dom extra c changed own store)
    {i : Fin diskBuffSize} (hpage : (c.buff i).page ≠ 0)
    (hown : own i = c.currentPartition) (x : Block) :
    Coherent dom extra (c.poke (c.buff i).page x) (insert (c.buff i).page changed) own
      (store.set c.currentPartition (c.buff i).blockId x) := by
  have hpageNe : ∀ j, (c.buff j).page ≠ 0 → j ≠ i →
      (c.buff j).page ≠ (c.buff i).page :=
    fun j hj hne heq => hne (h.wf.page_inj j i hj heq)
  refine ⟨h.wf.congr rfl (fun _ => rfl) (fun _ => rfl), h.empty, h.held, ?_, ?_, ?_, ?_⟩
  · intro j hj
    simp only [Cache.poke] at hj ⊢
    rcases eq_or_ne j i with rfl | hne
    · rw [Function.update_self, hown, Store.set_self]
    · rw [Function.update_of_ne (hpageNe j hj hne), h.content j hj, Store.set_of_ne]
      exact fun hthis => hne (h.wf.block_inj j i hj hpage hthis.2)
  · intro j hj
    rcases eq_or_ne j i with rfl | hne
    · exact hown
    · refine h.mounted j (hj.imp_right fun hmem => ?_)
      refine (Finset.mem_insert.mp hmem).resolve_left fun heq => ?_
      by_cases hzero : (c.buff j).page = 0
      · exact hpage (heq ▸ hzero)
      · exact hpageNe j hzero hne heq
  · intro p b hpb hclean
    simp only [Cache.poke] at hclean ⊢
    have hthis : ¬ (p = c.currentPartition ∧ b = (c.buff i).blockId) := by
      rintro ⟨rfl, rfl⟩
      exact hclean i hpage hown rfl (Or.inr (Finset.mem_insert_self _ _))
    rw [Store.set_of_ne _ _ hthis]
    exact h.clean p b hpb fun j hj hjp hjb hpend =>
      hclean j hj hjp hjb (hpend.imp_right (Finset.mem_insert_of_mem ·))
  · exact Finset.insert_subset (Cache.mem_pages.mpr ⟨hpage, i, rfl⟩) h.changed_pages

/-- The changed pages after a commit. -/
def changedAfterCommit (changed : Finset Nat) (page : Nat) (doWrite : Bool) : Finset Nat :=
  if doWrite then changed.erase page else changed

/-- A commit keeps the cache coherent.  Only a page of the mounted partition
may be committed as written. -/
theorem blockCommit_coherent (doWrite : Bool) (h : Coherent dom extra c changed own store)
    {i : Fin diskBuffSize} (hpage : (c.buff i).page ≠ 0)
    (hown : doWrite = true → own i = c.currentPartition) :
    ((blockCommit c (c.buff i).page doWrite).table = c.table ∧
      (blockCommit c (c.buff i).page doWrite).currentPartition = c.currentPartition) ∧
    (((blockCommit c (c.buff i).page doWrite).buff i).inUse = false ∧
      ∀ j, j ≠ i → (blockCommit c (c.buff i).page doWrite).buff j = c.buff j) ∧
    Coherent dom extra (blockCommit c (c.buff i).page doWrite)
      (changedAfterCommit changed (c.buff i).page doWrite) own store := by
  have hinj : ∀ j, (c.buff j).page = (c.buff i).page → j = i :=
    fun j hj => (h.wf.page_inj i j hpage hj.symm).symm
  rw [blockCommit_eq hinj]
  set c₁ := c.setBuff i
    { c.buff i with dirty := doWrite || (c.buff i).dirty, inUse := false } with hc₁
  have hbuff : ∀ j, (c₁.buff j).page = (c.buff j).page ∧
      (c₁.buff j).blockId = (c.buff j).blockId := by
    intro j
    rcases eq_or_ne j i with rfl | hne <;> simp [*]
  have hother : ∀ j, j ≠ i → c₁.buff j = c.buff j :=
    fun j hne => Cache.setBuff_buff_of_ne _ hne _
  have hself : (c₁.buff i).dirty = (doWrite || (c.buff i).dirty) := by simp [hc₁]
  have hpageNe : ∀ j, j ≠ i → (c.buff j).page ≠ (c.buff i).page :=
    fun j hne heq => hne (h.wf.page_inj i j hpage heq.symm).symm
  have hpending : ∀ j, j ≠ i →
      (c₁.Pending (changedAfterCommit changed (c.buff i).page doWrite) j ↔
        c.Pending changed j) := by
    intro j hne
    rw [Cache.Pending, Cache.Pending, hother j hne, changedAfterCommit]
    split
    · rw [Finset.mem_erase, and_iff_right (hpageNe j hne)]
    · rfl
  have hpending_self : c.Pending changed i →
      c₁.Pending (changedAfterCommit changed (c.buff i).page doWrite) i := by
    rintro hi
    cases doWrite with
    | true => exact Or.inl (by rw [hself]; rfl)
    | false =>
      refine hi.imp (fun hd => by rw [hself, hd]; rfl) fun hmem => ?_
      rw [(hbuff i).1]
      exact hmem
  have hpages : c₁.pages = c.pages := by simp only [Cache.pages, fun j => (hbuff j).1]
  refine ⟨⟨rfl, rfl⟩, ⟨by simp [hc₁], hother⟩, h.wf.setFlags i false _, ?_, ?_, ?_, ?_, ?_, ?_⟩
  · intro j hj
    have hne : j ≠ i := by
      rintro rfl
      exact hpage ((hbuff j).1 ▸ hj)
    rw [hother j hne] at hj ⊢
    exact h.empty j hj
  · intro j
    rw [(hbuff j).1, (hbuff j).2]
    exact h.held j
  · intro j
    rw [(hbuff j).1, (hbuff j).2]
    exact h.content j
  · intro j hj
    rcases eq_or_ne j i with rfl | hne
    · cases doWrite with
      | true => exact hown rfl
      | false =>
        refine h.mounted j (hj.imp (fun hd => ?_) fun hmem => ?_)
        · rw [hself] at hd
          exact hd
        · rw [(hbuff j).1] at hmem
          exact hmem
    · exact h.mounted j ((hpending j hne).mp hj)
  · intro p b hpb hclean
    refine h.clean p b hpb fun j hj hjp hjb hpend => ?_
    refine hclean j (by rw [(hbuff j).1]; exact hj) hjp (by rw [(hbuff j).2]; exact hjb) ?_
    rcases eq_or_ne j i with rfl | hne
    · exact hpending_self hpend
    · exact (hpending j hne).mpr hpend
  · rw [hpages, changedAfterCommit]
    split
    · exact (Finset.erase_subset _ _).trans h.changed_pages
    · exact h.changed_pages

/-! ## The operations -/

/-- The owners of the buffers after `block_get`: the buffer that was loaded
belongs to the mounted partition, and so does one whose content the caller
is going to replace. -/
def Cache.ownAfterGet (c : Cache) (own : Fin diskBuffSize → Fin 4) (blockId : Nat)
    (doRead : Bool) : Fin diskBuffSize → Fin 4 :=
  match c.findBuff blockId with
  | some i => if doRead then own else Function.update own i c.currentPartition
  | none =>
    match c.victimFrom diskBuffSize c.idNextNewBuff with
    | some i => Function.update own i c.currentPartition
    | none => own

/-- The changed pages after `block_get`: a page that is taken over from
another partition has to be written. -/
def Cache.changedAfterGet (c : Cache) (changed : Finset Nat)
    (own : Fin diskBuffSize → Fin 4) (blockId : Nat) (doRead : Bool) : Finset Nat :=
  match c.findBuff blockId with
  | some i =>
    if doRead = true ∨ own i = c.currentPartition then changed
    else insert (c.buff i).page changed
  | none => changed

/-- The page of another partition that a caller takes over for the same block
number of the mounted partition. -/
theorem Coherent.takeOver (h : Coherent dom extra c changed own store)
    {i : Fin diskBuffSize} (hpage : (c.buff i).page ≠ 0)
    (hown : own i ≠ c.currentPartition)
    (hdom : dom c.currentPartition (c.buff i).blockId) :
    Coherent dom extra c (insert (c.buff i).page changed)
      (Function.update own i c.currentPartition)
      (store.set c.currentPartition (c.buff i).blockId (c.mem (c.buff i).page)) := by
  have hpageNe : ∀ j, j ≠ i → (c.buff j).page ≠ (c.buff i).page :=
    fun j hne heq => hne (h.wf.page_inj i j hpage heq.symm).symm
  have hclean_i : ¬ c.Pending changed i := fun hpend => hown (h.mounted i hpend)
  have hpending : ∀ j, j ≠ i →
      (c.Pending (insert (c.buff i).page changed) j ↔ c.Pending changed j) := by
    intro j hne
    rw [Cache.Pending, Finset.mem_insert, or_iff_right (hpageNe j hne), Cache.Pending]
  refine ⟨h.wf, h.empty, ?_, ?_, ?_, ?_, ?_⟩
  · intro j hj
    rcases eq_or_ne j i with rfl | hne
    · rw [Function.update_self]
      exact hdom
    · rw [Function.update_of_ne hne]
      exact h.held j hj
  · intro j hj
    rcases eq_or_ne j i with rfl | hne
    · rw [Function.update_self, Store.set_self]
    · rw [Function.update_of_ne hne, h.content j hj, Store.set_of_ne]
      exact fun hthis => hne (h.wf.block_inj j i hj hpage hthis.2)
  · intro j hj
    rcases eq_or_ne j i with rfl | hne
    · rw [Function.update_self]
    · rw [Function.update_of_ne hne]
      exact h.mounted j ((hpending j hne).mp hj)
  · intro p b hpb hclean
    have hthis : ¬ (p = c.currentPartition ∧ b = (c.buff i).blockId) := by
      rintro ⟨rfl, rfl⟩
      exact hclean i hpage (Function.update_self ..) rfl
        (Or.inr (Finset.mem_insert_self _ _))
    rw [Store.set_of_ne _ _ hthis]
    refine h.clean p b hpb fun j hj hjp hjb => ?_
    rcases eq_or_ne j i with rfl | hne
    · exact hclean_i
    · rw [← hpending j hne]
      exact hclean j hj (by rw [Function.update_of_ne hne]; exact hjp) hjb
  · exact Finset.insert_subset (Cache.mem_pages.mpr ⟨hpage, i, rfl⟩) h.changed_pages

/-- `block_get` keeps the cache coherent and answers with the page of the
block.  A reader must not meet a buffer of another partition, and the buffer
that is recycled must not hold changes. -/
theorem blockGet_coherent (hsep : SeparateOn c.table dom)
    (h : Coherent dom extra c changed own store) {b a : Nat} {doRead : Bool}
    (hdom : dom c.currentPartition b)
    (hstale : doRead = true → ∀ i, c.findBuff b = some i → own i = c.currentPartition)
    (hvictim : ∀ v, c.findBuff b = none →
      c.victimFrom diskBuffSize c.idNextNewBuff = some v → (c.buff v).page ∉ changed)
    (hget : blockGet c b doRead = some (a, c')) :
    (∃ i, a = (c'.buff i).page ∧ a ≠ 0 ∧ (c'.buff i).blockId = b ∧
      c.ownAfterGet own b doRead i = c.currentPartition ∧
      ∀ j, j ≠ i → (c'.buff j).inUse = (c.buff j).inUse) ∧
    (doRead = true → c'.mem a = store c.currentPartition b) ∧
    c'.table = c.table ∧ c'.currentPartition = c.currentPartition ∧
    Coherent dom extra c' (c.changedAfterGet changed own b doRead)
      (c.ownAfterGet own b doRead) (store.set c.currentPartition b (c'.mem a)) := by
  rcases blockGet_cases hget with ⟨i, hfind, rfl, rfl⟩ | ⟨v, hfind, hv, rfl, rfl⟩
  · obtain ⟨rfl, hpage⟩ := Cache.findBuff_eq_some hfind
    have hcontent := h.content i hpage
    simp only [Cache.ownAfterGet, Cache.changedAfterGet, hfind]
    have hothers : ∀ j, j ≠ i →
        ((c.setBuff i { c.buff i with inUse := true }).buff j).inUse = (c.buff j).inUse := by
      intro j hne
      rw [Cache.setBuff_buff_of_ne _ hne]
    have hself : (c.setBuff i { c.buff i with inUse := true }).buff i =
        { c.buff i with inUse := true } := Cache.setBuff_buff_self ..
    by_cases hown : own i = c.currentPartition
    · have hset : store.set c.currentPartition (c.buff i).blockId
          (c.mem (c.buff i).page) = store := by
        rw [hcontent, hown, Store.set_eq_self]
      have hupd : Function.update own i c.currentPartition = own := by
        rw [← hown, Function.update_eq_self]
      rw [hupd, ite_self, if_pos (Or.inr hown)]
      refine ⟨⟨i, by rw [hself], hpage, by rw [hself], hown, hothers⟩,
        fun _ => by rw [← hown]; exact hcontent, rfl, rfl, ?_⟩
      refine Coherent.setInUse ?_ i true
      rw [show (c.setBuff i { c.buff i with inUse := true }).mem = c.mem from rfl, hset]
      exact h
    · cases doRead with
      | true => exact absurd (hstale rfl i hfind) hown
      | false =>
        rw [if_neg (by decide), if_neg (fun hor => hor.elim (by decide) hown)]
        refine ⟨⟨i, by rw [hself], hpage, by rw [hself], Function.update_self .., hothers⟩,
          fun hfalse => absurd hfalse (by decide), rfl, rfl, ?_⟩
        exact (h.takeOver hpage hown hdom).setInUse i true
  · have hev := h.evict hsep (hvictim v hfind hv)
    have hpart := c.evict_currentPartition v
    have hload := hev.load doRead (c.evict_page_self v)
      (Cache.blockId_ne_evict hfind) (b := b) (by rw [hpart]; exact hdom)
    simp only [Cache.ownAfterGet, Cache.changedAfterGet, hfind, hv]
    rw [hpart] at hload
    refine ⟨⟨v, ?_, hev.wf.newPage_fresh.1, ?_, Function.update_self .., ?_⟩, hload.2,
      by simp, by simp, hload.1⟩
    · rw [Cache.load_buff_self]
    · rw [Cache.load_buff_self]
    · intro j _
      rw [Cache.load_inUse, Cache.evict_inUse]

/-- Between accesses no buffer is in use. -/
def Cache.Idle (c : Cache) : Prop := ∀ i, (c.buff i).inUse = false

/-- On an idle cache the search takes the first buffer that it looks at. -/
theorem Cache.Idle.victim (h : c.Idle) (v : Fin diskBuffSize) :
    c.victimFrom diskBuffSize v = some v := by
  simp [diskBuffSize, Cache.victimFrom, h v]

theorem Cache.Idle.exists_blockGet (h : c.Idle) (b : Nat) (doRead : Bool) :
    ∃ a c', blockGet c b doRead = some (a, c') := by
  unfold blockGet
  cases c.findBuff b with
  | some i => exact ⟨_, _, rfl⟩
  | none => exact ⟨_, _, by rw [h.victim]; rfl⟩

/-- An access sees the stored content, stores what it leaves in the page, and
keeps the cache coherent.  The cached copy of the block, if any, must belong
to the mounted partition. -/
theorem access_coherent (hsep : SeparateOn c.table dom)
    (h : Coherent dom extra c ∅ own store) (hidle : c.Idle) {b : Nat}
    (hdom : dom c.currentPartition b)
    (hown : ∀ i, c.findBuff b = some i → own i = c.currentPartition)
    {doRead doWrite : Bool} {f : Block → Block}
    (hrw : doWrite = true ∨ doRead = true ∧ ∀ x, f x = x) :
    ∃ seen c' own', access c b doRead f doWrite = some (seen, c') ∧
      (doRead = true → seen = store c.currentPartition b) ∧
      c'.table = c.table ∧ c'.currentPartition = c.currentPartition ∧ c'.Idle ∧
      Coherent dom extra c' ∅ own' (store.set c.currentPartition b (f seen)) := by
  obtain ⟨a, c₁, hget⟩ := hidle.exists_blockGet b doRead
  obtain ⟨⟨i, rfl, hpage, hblock, howner, hinUse⟩, hseen, htable, hpart, hco⟩ :=
    blockGet_coherent hsep h hdom (fun _ => hown) (fun _ _ _ => Finset.notMem_empty _) hget
  set a := (c₁.buff i).page with ha
  have hchanged : c.changedAfterGet ∅ own b doRead = ∅ := by
    unfold Cache.changedAfterGet
    split
    · rename_i j hfind
      rw [if_pos (Or.inr (hown j hfind))]
    · rfl
  rw [hchanged] at hco
  have hwritten : ∃ changed, Coherent dom extra (c₁.poke a (f (c₁.mem a))) changed
      (c.ownAfterGet own b doRead) (store.set c.currentPartition b (f (c₁.mem a))) ∧
      changedAfterCommit changed a doWrite = ∅ := by
    rcases hrw with rfl | ⟨_, hid⟩
    · have hw := hco.write hpage (howner.trans hpart.symm) (f (c₁.mem a))
      rw [hpart, hblock, Store.set_set] at hw
      exact ⟨_, hw, by simp [changedAfterCommit, ha]⟩
    · rw [hid, Cache.poke, Function.update_eq_self]
      exact ⟨_, hco, by simp [changedAfterCommit]⟩
  obtain ⟨changed, hw, hempty⟩ := hwritten
  have hcommit := blockCommit_coherent (i := i) doWrite hw hpage
    (fun _ => howner.trans hpart.symm)
  rw [show ((c₁.poke a (f (c₁.mem a))).buff i).page = a from rfl, hempty] at hcommit
  obtain ⟨hframe, hidle', hco'⟩ := hcommit
  refine ⟨c₁.mem a, _, _, by simp [access, hget], hseen, ?_, ?_, ?_, hco'⟩
  · exact hframe.1.trans htable
  · exact hframe.2.trans hpart
  · intro j
    rcases eq_or_ne j i with rfl | hne
    · exact hidle'.1
    · rw [hidle'.2 j hne]
      exact (hinUse j hne).trans (hidle j)

/-- A flush keeps the cache coherent and leaves no dirty page. -/
theorem blockSink_coherent (hsep : SeparateOn c.table dom)
    (h : Coherent dom extra c changed own store) :
    Coherent dom extra (blockSink c) changed own store := by
  obtain ⟨hmem, htable, hpart, hbuff⟩ := blockSink_frame c
  have hpages : (blockSink c).pages = c.pages := by simp only [Cache.pages, hbuff]
  have hpage_of_dirty : ∀ j, (c.buff j).dirty = true → (c.buff j).page ≠ 0 := by
    intro j hj hzero
    exact h.not_pending_of_empty hzero (Or.inl hj)
  refine ⟨blockSink_wf h.wf, ?_, ?_, ?_, ?_, ?_, by rw [hpages]; exact h.changed_pages⟩
  · intro i _
    rw [hbuff]
  · intro i hi
    rw [hbuff] at hi ⊢
    exact h.held i hi
  · intro i hi
    rw [hbuff] at hi ⊢
    rw [hmem]
    exact h.content i hi
  · intro i hi
    rw [Cache.Pending, hbuff] at hi
    rw [hpart]
    exact h.mounted i (Or.inr (hi.resolve_left (by simp)))
  · intro p b hpb hclean
    have hdirtySep : ∀ j, (c.buff j).dirty = true → dom c.currentPartition (c.buff j).blockId := by
      intro j hj
      rw [← h.mounted j (Or.inl hj)]
      exact h.held j (hpage_of_dirty j hj)
    rw [htable]
    by_cases hdirty : ∃ i, (c.buff i).dirty = true ∧ c.currentPartition = p ∧
        (c.buff i).blockId = b
    · obtain ⟨i, hd, rfl, rfl⟩ := hdirty
      rw [blockSink, blockRead_foldl_sink_dirty _ c (List.mem_finRange i) hd,
        h.content i (hpage_of_dirty i hd), h.mounted i (Or.inl hd)]
      intro j _ hne hj
      refine hsep _ _ _ _ (hdirtySep j hj) (hdirtySep i hd) ?_
      rintro ⟨_, hid⟩
      exact hne (h.wf.block_inj j i (hpage_of_dirty j hj) (hpage_of_dirty i hd) hid.symm)
    · rw [blockSink, blockRead_foldl_sink_of_separate]
      · refine h.clean p b hpb fun i hi hip hib hpend => ?_
        rcases hpend with hd | hmem'
        · exact hdirty ⟨i, hd, (h.mounted i (Or.inl hd)).symm.trans hip, hib⟩
        · refine hclean i ?_ hip ?_ (Or.inr ?_) <;> rw [hbuff] <;> assumption
      · intro j _ hj
        refine hsep _ _ _ _ (hdirtySep j hj) hpb ?_
        rintro ⟨hp, hb⟩
        exact hdirty ⟨j, hj, hp.symm, hb.symm⟩

/-- When nothing is pending the card holds the whole store. -/
theorem Coherent.card_eq (h : Coherent dom extra c changed own store)
    (hclean : ∀ i, ¬ c.Pending changed i) {p : Fin 4} {b : Nat} (hdom : dom p b) :
    blockRead c.table c.card p b = store p b :=
  h.clean p b hdom fun i _ _ _ => hclean i

end Coherence

/-! ## Boot -/

/-- `page_ctrl_kernel` after `init_memory` took `zero_page` and `files_init`
took the page of the file table. -/
def bootKernelPool : PageCtrl :=
  (allocPage (allocPage (pageCtrlInit kernelPageStart blockSize)).2).2

/-- `zero_page` and the page of `files`. -/
def bootPages : Finset Nat := {kernelPageStart, kernelPageStart + blockSize}

/-- The block layer after `disk_buff_init`, with partition `part` selected. -/
def bootCache (table : PartitionTable) (card : Card) (mem : Nat → Block) (part : Fin 4) :
    Cache :=
  diskBuffInit
    { buff := fun _ => { page := 0, inUse := false, dirty := false, blockId := 0 }
      idNextNewBuff := 0
      cntDirtyBuff := 0
      currentPartition := part
      table := table
      card := card
      mem := mem
      pageCtrlKernel := bootKernelPool }

theorem bootKernelPool_exact : Exact bootKernelPool 2 bootPages := by
  have hzero : kernelPageStart < 2 ^ 64 := by simp only [kernelPageStart]; omega
  have h0 := exact_init blockSize hzero
  obtain ⟨_, h1⟩ := allocPage_exact h0 (Cache.regular_kernel (by omega))
  obtain ⟨_, h2⟩ := allocPage_exact h1 (Cache.regular_kernel (n := 2) (by omega))
  have hlive : (insert (allocPage (allocPage (pageCtrlInit kernelPageStart blockSize)).2).1
      (insert (allocPage (pageCtrlInit kernelPageStart blockSize)).1 ∅) : Finset Nat) =
        bootPages := by
    rw [bootPages, Finset.pair_comm]
    rfl
  rw [hlive] at h2
  exact h2

theorem bootCache_wf (table : PartitionTable) (card : Card) (mem : Nat → Block)
    (part : Fin 4) : (bootCache table card mem part).Wf bootPages := by
  have hpages : (bootCache table card mem part).pages = ∅ := by
    ext a
    simp only [Cache.mem_pages, bootCache, diskBuffInit, Finset.notMem_empty, iff_false]
    rintro ⟨ha, _, rfl⟩
    exact ha rfl
  refine ⟨rfl, rfl, ⟨2, by omega, ?_⟩, ?_, ?_, ?_, by decide⟩
  · rw [hpages, Finset.union_empty]
    exact bootKernelPool_exact
  · intro i j hi
    exact absurd rfl hi
  · intro i j hi
    exact absurd rfl hi
  · rw [hpages]
    exact Finset.disjoint_empty_right _

/-- The empty cache is coherent with what the card holds. -/
theorem bootCache_coherent (table : PartitionTable) (card : Card) (mem : Nat → Block)
    (part : Fin 4) (dom : Fin 4 → Nat → Prop) :
    Coherent dom bootPages (bootCache table card mem part) ∅ (fun _ => part)
      (fun p b => blockRead table card p b) where
  wf := bootCache_wf table card mem part
  empty := fun _ _ => rfl
  held := fun _ h => absurd rfl h
  content := fun _ h => absurd rfl h
  mounted := fun _ _ => rfl
  clean := fun _ _ _ _ => rfl
  changed_pages := Finset.empty_subset _

end MipsOs.Fs
