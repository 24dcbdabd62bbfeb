import MipsOs.Fs.Access
import MipsOs.Lib.Run

/-!
# The cache against a flat block store

The abstract view of the cache is a flat store: one content for every block
of the mounted partition.  A state of the joint system is the cache next to
its flat store, and the two move together under four operations: the three
forms of access and `block_sink`.

`Refines n s` is the refinement: every access to a block below `n` returns
and sees the content of the flat store, no two buffers hold one block, a
clean buffer agrees with the card, and a flush brings the card up to the
flat store.

The refinement holds in every run over a partition of at most `2 ^ 20`
blocks.  Above that size the byte offset of `block_write` wraps at
`2 ^ 32`, and block `2 ^ 20` is block `0` on the card.
-/

namespace MipsOs.Fs

open MipsOs.Lib MipsOs.Mm

/-! ## The joint system -/

/-- The operations of the joint system.  The function of `readModifyWrite` is
what the caller does to the page. -/
inductive CacheOp where
  | readOnly (blockId : Nat)
  | readModifyWrite (blockId : Nat) (f : Block → Block)
  | overwrite (blockId : Nat) (x : Block)
  | sink

/-- The operation stays inside a partition of `n` blocks. -/
def CacheOp.Inside (n : Nat) : CacheOp → Prop
  | .readOnly b => b < n
  | .readModifyWrite b _ => b < n
  | .overwrite b _ => b < n
  | .sink => True

/-- The cache and the flat store that it stands for. -/
structure Cached where
  cache : Cache
  flat : Nat → Block

/-- One operation on the cache and on the flat store. -/
def cacheStep (s : Cached) : CacheOp → Option Cached
  | .readOnly b => do
    let (_, c) ← access s.cache b true id false
    return { s with cache := c }
  | .readModifyWrite b f => do
    let (_, c) ← access s.cache b true f true
    return { cache := c, flat := Function.update s.flat b (f (s.flat b)) }
  | .overwrite b x => do
    let (_, c) ← access s.cache b false (fun _ => x) true
    return { cache := c, flat := Function.update s.flat b x }
  | .sink => some { s with cache := blockSink s.cache }

/-- The joint system at boot: the flat store is what the card holds. -/
def bootCached (table : PartitionTable) (card : Card) (mem : Nat → Block) (part : Fin 4) :
    Cached where
  cache := bootCache table card mem part
  flat := fun b => blockRead table card part b

/-- The cache stands for the flat store on the blocks below `n`. -/
structure Refines (n : Nat) (s : Cached) : Prop where
  observes : ∀ b < n, ∀ (f : Block → Block) (doWrite : Bool),
    doWrite = true ∨ (∀ x, f x = x) →
    ∃ c, access s.cache b true f doWrite = some (s.flat b, c)
  overwrites : ∀ b < n, ∀ x, ∃ seen c,
    access s.cache b false (fun _ => x) true = some (seen, c)
  one_buffer : ∀ i j, (s.cache.buff i).page ≠ 0 → (s.cache.buff j).page ≠ 0 →
    (s.cache.buff i).blockId = (s.cache.buff j).blockId → i = j
  clean : ∀ i, (s.cache.buff i).page ≠ 0 → (s.cache.buff i).dirty = false →
    s.cache.mem (s.cache.buff i).page =
      blockRead s.cache.table s.cache.card s.cache.currentPartition
        (s.cache.buff i).blockId
  flushed : ∀ b < n,
    blockRead (blockSink s.cache).table (blockSink s.cache).card
      (blockSink s.cache).currentPartition b = s.flat b

/-! ## The invariant of the joint system -/

/-- The blocks below `n` of one partition. -/
def blocksBelow (part : Fin 4) (n : Nat) (p : Fin 4) (b : Nat) : Prop :=
  p = part ∧ b < n

theorem separateOn_blocksBelow (table : PartitionTable) (part : Fin 4) {n : Nat}
    (hn : n ≤ 2 ^ 20) : SeparateOn table (blocksBelow part n) := by
  rintro p b q d ⟨rfl, hb⟩ ⟨rfl, hd⟩ hne
  exact separate_of_lt table q (by omega) (by omega) (fun h => hne ⟨rfl, h.symm⟩)

/-- The invariant: the cache is coherent with a store whose mounted
partition is the flat store. -/
structure CachedInv (table : PartitionTable) (part : Fin 4) (dom : Fin 4 → Nat → Prop)
    (s : Cached) : Prop where
  table_eq : s.cache.table = table
  part_eq : s.cache.currentPartition = part
  idle : s.cache.Idle
  coherent : ∃ own store, Coherent dom bootPages s.cache ∅ own store ∧
    ∀ b, store part b = s.flat b

section Invariant

variable {table : PartitionTable} {part : Fin 4} {dom : Fin 4 → Nat → Prop} {s : Cached}

theorem bootCached_inv (card : Card) (mem : Nat → Block) :
    CachedInv table part dom (bootCached table card mem part) where
  table_eq := rfl
  part_eq := rfl
  idle := fun _ => rfl
  coherent := ⟨_, _, bootCache_coherent table card mem part dom, fun _ => rfl⟩

/-- One access, as every form of access needs it. -/
theorem CachedInv.access (hsep : SeparateOn table dom)
    (hpart : ∀ p b, dom p b → p = part) (h : CachedInv table part dom s) {b : Nat}
    (hb : dom part b) (doRead doWrite : Bool) {f : Block → Block}
    (hrw : doWrite = true ∨ doRead = true ∧ ∀ x, f x = x) :
    ∃ seen c, Fs.access s.cache b doRead f doWrite = some (seen, c) ∧
      (doRead = true → seen = s.flat b) ∧
      CachedInv table part dom ⟨c, Function.update s.flat b (f seen)⟩ := by
  obtain ⟨htable, hcur, hidle, own, store, hco, hflat⟩ := h
  have hown : ∀ i, s.cache.findBuff b = some i → own i = s.cache.currentPartition := by
    intro i hi
    rw [hcur]
    exact hpart _ _ (hco.held i (Cache.findBuff_eq_some hi).2)
  obtain ⟨seen, c, own', hacc, hseen, htable', hcur', hidle', hco'⟩ :=
    access_coherent (htable ▸ hsep) hco hidle (hcur ▸ hb) hown hrw
  refine ⟨seen, c, hacc, ?_,
    ⟨htable'.trans htable, hcur'.trans hcur, hidle', own', _, hco', ?_⟩⟩
  · intro hr
    rw [hseen hr, hcur, hflat]
  · intro d
    rw [hcur]
    simp only
    rcases eq_or_ne d b with rfl | hne
    · rw [Store.set_self, Function.update_self]
    · rw [Store.set_of_ne _ _ (fun h => hne h.2), Function.update_of_ne hne, hflat]

theorem CachedInv.sink (hsep : SeparateOn table dom) (h : CachedInv table part dom s) :
    CachedInv table part dom ⟨blockSink s.cache, s.flat⟩ := by
  obtain ⟨htable, hcur, hidle, own, store, hco, hflat⟩ := h
  obtain ⟨_, htable', hcur', hbuff⟩ := blockSink_frame s.cache
  refine ⟨htable'.trans htable, hcur'.trans hcur, fun i => ?_, own, store,
    blockSink_coherent (htable ▸ hsep) hco, hflat⟩
  rw [hbuff]
  exact hidle i

/-- A flush brings the card up to the flat store. -/
theorem CachedInv.flushed (hsep : SeparateOn table dom) (h : CachedInv table part dom s)
    {b : Nat} (hb : dom part b) :
    blockRead (blockSink s.cache).table (blockSink s.cache).card part b = s.flat b := by
  obtain ⟨_, _, _, own, store, hco, hflat⟩ := h.sink hsep
  rw [hco.card_eq _ hb, hflat]
  intro i
  obtain ⟨_, _, _, hbuff⟩ := blockSink_frame s.cache
  simp [Cache.Pending, hbuff]

end Invariant

/-- One step of the joint system keeps the invariant. -/
theorem cacheStep_inv {table : PartitionTable} {part : Fin 4} {n : Nat}
    (hn : n ≤ 2 ^ 20) {s s' : Cached} {op : CacheOp}
    (h : CachedInv table part (blocksBelow part n) s) (hin : op.Inside n)
    (hstep : cacheStep s op = some s') :
    CachedInv table part (blocksBelow part n) s' := by
  have hsep := separateOn_blocksBelow table part hn
  have hpart : ∀ p b, blocksBelow part n p b → p = part := fun _ _ h => h.1
  cases op with
  | readOnly b =>
    obtain ⟨seen, c, hacc, hseen, hinv⟩ :=
      h.access hsep hpart (b := b) ⟨rfl, hin⟩ true false
        (f := id) (Or.inr ⟨rfl, fun _ => rfl⟩)
    simp only [cacheStep, hacc, Option.bind_eq_bind, Option.bind_some, Option.pure_def,
      Option.some.injEq] at hstep
    subst hstep
    simpa [hseen rfl] using hinv
  | readModifyWrite b f =>
    obtain ⟨seen, c, hacc, hseen, hinv⟩ :=
      h.access hsep hpart (b := b) ⟨rfl, hin⟩ true true
        (f := f) (Or.inl rfl)
    simp only [cacheStep, hacc, Option.bind_eq_bind, Option.bind_some, Option.pure_def,
      Option.some.injEq] at hstep
    subst hstep
    simpa [hseen rfl] using hinv
  | overwrite b x =>
    obtain ⟨seen, c, hacc, _, hinv⟩ :=
      h.access hsep hpart (b := b) ⟨rfl, hin⟩ false true
        (f := fun _ => x) (Or.inl rfl)
    simp only [cacheStep, hacc, Option.bind_eq_bind, Option.bind_some, Option.pure_def,
      Option.some.injEq] at hstep
    subst hstep
    exact hinv
  | sink =>
    simp only [cacheStep, Option.some.injEq] at hstep
    subst hstep
    exact h.sink hsep

/-- The invariant gives the refinement. -/
theorem CachedInv.refines {table : PartitionTable} {part : Fin 4} {n : Nat}
    (hn : n ≤ 2 ^ 20) {s : Cached}
    (h : CachedInv table part (blocksBelow part n) s) : Refines n s := by
  have hsep := separateOn_blocksBelow table part hn
  have hpart : ∀ p b, blocksBelow part n p b → p = part := fun _ _ h => h.1
  refine ⟨?_, ?_, ?_, ?_, ?_⟩
  · intro b hb f doWrite hrw
    obtain ⟨seen, c, hacc, hseen, _⟩ :=
      h.access hsep hpart (b := b) ⟨rfl, hb⟩ true doWrite
        (f := f) (hrw.imp_right fun hid => ⟨rfl, hid⟩)
    exact ⟨c, by rw [hacc, hseen rfl]⟩
  · intro b hb x
    obtain ⟨seen, c, hacc, _, _⟩ :=
      h.access hsep hpart (b := b) ⟨rfl, hb⟩ false true
        (f := fun _ => x) (Or.inl rfl)
    exact ⟨seen, c, hacc⟩
  · obtain ⟨_, _, hco, _⟩ := h.coherent
    exact hco.wf.block_inj
  · intro i hi hd
    obtain ⟨own, _, hco, _⟩ := h.coherent
    rw [hco.clean_page hi (by simp [Cache.Pending, hd]), h.part_eq, (hco.held i hi).1]
  · intro b hb
    obtain ⟨_, _, hcur, _⟩ := blockSink_frame s.cache
    rw [hcur, h.part_eq]
    exact h.flushed hsep ⟨rfl, hb⟩

/-! ## When the cache refines the flat store -/

/-- In a run that writes block `2 ^ 20` a flush overwrites block `0`. -/
theorem not_refines_wrapped_write (table : PartitionTable) (part : Fin 4)
    (mem : Nat → Block) {n : Nat} (hn : 2 ^ 20 < n) :
    ∃ s, Reaches cacheStep (fun _ op => op.Inside n)
        (bootCached table (fun _ => 0) mem part) s ∧ ¬ Refines n s := by
  have hsep : SeparateOn table (fun p b => p = part ∧ b = 2 ^ 20) := by
    rintro p b q d ⟨rfl, rfl⟩ ⟨rfl, rfl⟩ hne
    exact absurd ⟨rfl, rfl⟩ hne
  have hboot : CachedInv table part (fun p b => p = part ∧ b = 2 ^ 20)
      (bootCached table (fun _ => 0) mem part) := bootCached_inv (fun _ => 0) mem
  obtain ⟨seen, c, hacc, _, hinv⟩ :=
    hboot.access hsep (fun _ _ h => h.1) (b := 2 ^ 20) ⟨rfl, rfl⟩ false true
      (f := fun _ _ => 1) (Or.inl rfl)
  refine ⟨⟨c, Function.update (fun b => blockRead table (fun _ => 0) part b) (2 ^ 20)
    fun _ => 1⟩, (Reaches.refl _).snoc (e := .overwrite (2 ^ 20) fun _ => 1) hn ?_, ?_⟩
  · rw [cacheStep, hacc]
    rfl
  · intro hrefines
    have hzero := hrefines.flushed 0 (by omega)
    have hwritten := hinv.flushed hsep (b := 2 ^ 20) ⟨rfl, rfl⟩
    obtain ⟨_, htable, hcur, _⟩ := blockSink_frame c
    rw [hcur, hinv.part_eq] at hzero
    have halias : blockRead (blockSink c).table (blockSink c).card part (2 ^ 20) =
        blockRead (blockSink c).table (blockSink c).card part 0 :=
      blockRead_add_wrap (blockSink c).table (blockSink c).card part 0
    have hflat := halias.symm.trans hwritten
    rw [hzero] at hflat
    simp only [Function.update_self, Function.update_of_ne (show (0 : Nat) ≠ 2 ^ 20 by omega)]
      at hflat
    have hbyte : (0 : UInt8) = 1 := congrFun hflat 0
    exact absurd hbyte (by decide)

/-- The cache refines the flat store in every run over a partition exactly
when the partition has at most `2 ^ 20` blocks. -/
theorem cache_refines_flat_store_iff (table : PartitionTable) (part : Fin 4) :
    (∀ card mem s,
      Reaches cacheStep (fun _ op => op.Inside (partitionBlocks table part))
        (bootCached table card mem part) s →
      Refines (partitionBlocks table part) s) ↔
    partitionBlocks table part ≤ 2 ^ 20 := by
  constructor
  · intro h
    by_contra hlt
    obtain ⟨s, hreach, hnot⟩ := not_refines_wrapped_write table part (fun _ _ => 0)
      (n := partitionBlocks table part) (by omega)
    exact hnot (h _ _ _ hreach)
  · intro hn card mem s hreach
    have hinv : CachedInv table part (blocksBelow part (partitionBlocks table part)) s :=
      hreach.invariant _ (bootCached_inv card mem)
        fun a op b ha hin hstep => cacheStep_inv hn ha hin hstep
    exact hinv.refines hn

/-- A partition of `2 ^ 20 + 1` blocks, which starts at sector 0. -/
def wideTable : PartitionTable := fun _ => { startLba := 0, sectorNum := 8388616 }

/-- On that partition the cache does not refine the flat store: a flush of
block `2 ^ 20` changes block `0`. -/
theorem cache_not_refines_wideTable :
    ¬ ∀ card mem s,
      Reaches cacheStep (fun _ op => op.Inside (partitionBlocks wideTable 0))
        (bootCached wideTable card mem 0) s →
      Refines (partitionBlocks wideTable 0) s := by
  intro h
  obtain ⟨s, hreach, hnot⟩ := not_refines_wrapped_write wideTable 0 (fun _ _ => 0)
    (n := partitionBlocks wideTable 0) (by decide)
  exact hnot (h _ _ _ hreach)

end MipsOs.Fs
