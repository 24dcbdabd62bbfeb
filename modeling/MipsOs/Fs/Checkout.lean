import MipsOs.Fs.Access
import MipsOs.Lib.Run

/-!
# Buffers that are checked out

A caller of `block_get` holds the page until it calls `block_commit`.  The
joint state pairs the cache with the list of pages that callers hold, each
with the block it was obtained for; a page that two calls returned is held
twice.

`Checkout.Kept` is what the callers rely on: a page that is held is the page
of its block, it is not free, and it stands for one block only.

The path of `block_get` that loads a block does not set `disk_buff_using`,
so the page it returns is protected by nothing but the distance of its
buffer from `id_next_new_buff`.  `Checkout.Safe` is the exact condition
under which one more call is harmless.
-/

namespace MipsOs.Fs

open MipsOs.Lib MipsOs.Mm

/-- The cache, and the pages that callers hold with the block of each. -/
structure Checkout where
  cache : Cache
  out : List (Nat × Nat)

/-- A call of `block_get` or of `block_commit`. -/
inductive CheckoutOp where
  | get (blockId : Nat) (doRead : Bool)
  | commit (block : Nat) (doWrite : Bool)

/-- One call, with the pages that are held after it. -/
def checkoutStep (s : Checkout) : CheckoutOp → Option Checkout
  | .get blockId doRead => do
    let (page, c) ← blockGet s.cache blockId doRead
    return { cache := c, out := (page, blockId) :: s.out }
  | .commit block doWrite =>
    some
      { cache := blockCommit s.cache block doWrite
        out := s.out.eraseP fun e => e.1 = block }

/-- Nobody holds a page at boot. -/
def bootCheckout (table : PartitionTable) (card : Card) (mem : Nat → Block)
    (part : Fin 4) : Checkout where
  cache := bootCache table card mem part
  out := []

/-- The number of steps that the search for a victim takes to buffer `i`. -/
def Cache.rounds (c : Cache) (i : Fin diskBuffSize) : Nat :=
  (i + (diskBuffSize - c.idNextNewBuff)) % diskBuffSize

namespace Checkout

/-- Fewer than 32 buffers are outstanding. -/
def Bounded (s : Checkout) : Prop := (s.out.map Prod.fst).toFinset.card < diskBuffSize

/-- A caller holds the page of buffer `i`. -/
def Held (s : Checkout) (i : Fin diskBuffSize) : Prop :=
  (s.cache.buff i).page ∈ s.out.map Prod.fst

/-- What the callers rely on. -/
structure Kept (s : Checkout) : Prop where
  designates : ∀ e ∈ s.out, ∃ i, (s.cache.buff i).page = e.1 ∧
    (s.cache.buff i).blockId = e.2
  not_free : ∀ e ∈ s.out, e.1 ∉ s.cache.pageCtrlKernel.freePages
  one_block : ∀ e ∈ s.out, ∀ d ∈ s.out, e.1 = d.1 → e.2 = d.2

/-- The condition on one call.  A call that has to load its block meets, on
the way round from `id_next_new_buff`, a buffer that is not in use and not
held before it meets a held buffer that is not marked in use. -/
def Safe (s : Checkout) : CheckoutOp → Prop
  | .get blockId _ => s.cache.findBuff blockId = none →
      ∀ i, s.Held i → (s.cache.buff i).inUse = false →
        ∃ j, ¬ s.Held j ∧ (s.cache.buff j).inUse = false ∧
          s.cache.rounds j < s.cache.rounds i
  | .commit _ _ => True

end Checkout

/-! ## The search for a victim -/

namespace Cache

variable {c : Cache}

/-- The buffer `k` steps after `i`, going round. -/
private def after (i : Fin diskBuffSize) (k : Nat) : Fin diskBuffSize :=
  ⟨(i + k) % diskBuffSize, Nat.mod_lt _ (by decide)⟩

private theorem after_zero (i : Fin diskBuffSize) : after i 0 = i := by
  apply Fin.ext
  have := i.isLt
  simp only [after, diskBuffSize] at this ⊢
  omega

private theorem after_succ (i : Fin diskBuffSize) (k : Nat) :
    after (i + 1) k = after i (k + 1) := by
  apply Fin.ext
  simp only [after, Fin.val_add, Fin.val_one, diskBuffSize]
  omega

private theorem after_rounds (i : Fin diskBuffSize) :
    after c.idNextNewBuff (c.rounds i) = i := by
  apply Fin.ext
  have := i.isLt
  have := c.idNextNewBuff.isLt
  simp only [after, rounds, diskBuffSize] at *
  omega

private theorem rounds_after {k : Nat} (hk : k < diskBuffSize) :
    c.rounds (after c.idNextNewBuff k) = k := by
  have := c.idNextNewBuff.isLt
  simp only [after, rounds, diskBuffSize] at *
  omega

theorem rounds_lt (i : Fin diskBuffSize) : c.rounds i < diskBuffSize :=
  Nat.mod_lt _ (by decide)

theorem rounds_inj {i j : Fin diskBuffSize} (h : c.rounds i = c.rounds j) : i = j := by
  rw [← after_rounds (c := c) i, h, after_rounds]

/-- The search passes only buffers that are in use. -/
private theorem victimFrom_eq_some {fuel : Nat} {i v : Fin diskBuffSize}
    (h : c.victimFrom fuel i = some v) :
    ∃ k < fuel, v = after i k ∧ ∀ m < k, (c.buff (after i m)).inUse = true := by
  induction fuel generalizing i with
  | zero => simp [victimFrom] at h
  | succ fuel ih =>
    rw [victimFrom] at h
    split at h
    · rename_i huse
      obtain ⟨k, hk, rfl, hbefore⟩ := ih h
      refine ⟨k + 1, by omega, after_succ i k, ?_⟩
      intro m hm
      cases m with
      | zero =>
        rw [after_zero]
        exact huse
      | succ m =>
        rw [← after_succ]
        exact hbefore m (by omega)
    · obtain rfl : i = v := by simpa using h
      exact ⟨0, by omega, (after_zero i).symm, fun m hm => absurd hm (by omega)⟩

/-- No buffer before the victim is free. -/
theorem rounds_victim_le {v j : Fin diskBuffSize}
    (h : c.victimFrom diskBuffSize c.idNextNewBuff = some v)
    (hj : (c.buff j).inUse = false) : c.rounds v ≤ c.rounds j := by
  obtain ⟨k, hk, rfl, hbefore⟩ := victimFrom_eq_some h
  rw [rounds_after hk]
  by_contra hlt
  have huse := hbefore (c.rounds j) (by omega)
  rw [after_rounds, hj] at huse
  exact absurd huse (by decide)

private theorem exists_victimFrom {fuel : Nat} {i : Fin diskBuffSize} {k : Nat}
    (hk : k < fuel) (hfree : (c.buff (after i k)).inUse = false) :
    ∃ v, c.victimFrom fuel i = some v := by
  induction fuel generalizing i k with
  | zero => omega
  | succ fuel ih =>
    rw [victimFrom]
    split
    · rename_i huse
      cases k with
      | zero =>
        rw [after_zero, huse] at hfree
        exact absurd hfree (by decide)
      | succ k =>
        rw [← after_succ] at hfree
        exact ih (by omega) hfree
    · exact ⟨i, rfl⟩

/-- The search ends when some buffer is not in use. -/
theorem exists_victim {i : Fin diskBuffSize} (hfree : (c.buff i).inUse = false) :
    ∃ v, c.victimFrom diskBuffSize c.idNextNewBuff = some v :=
  exists_victimFrom (rounds_lt i) (by rw [after_rounds]; exact hfree)

end Cache

/-! ## The invariant -/

/-- The invariant of the runs: the cache is well formed, every held page is
the page of its block, and a buffer that is marked in use is held. -/
structure CheckoutInv (extra : Finset Nat) (s : Checkout) : Prop where
  wf : s.cache.Wf extra
  designates : ∀ e ∈ s.out, e.1 ≠ 0 ∧ ∃ i, (s.cache.buff i).page = e.1 ∧
    (s.cache.buff i).blockId = e.2
  used_held : ∀ i, (s.cache.buff i).inUse = true → s.Held i

theorem bootCheckout_inv (table : PartitionTable) (card : Card) (mem : Nat → Block)
    (part : Fin 4) : CheckoutInv bootPages (bootCheckout table card mem part) where
  wf := bootCache_wf table card mem part
  designates := by simp [bootCheckout]
  used_held := fun _ h => absurd h (by simp [bootCheckout, bootCache, diskBuffInit])

section Checkout

variable {extra : Finset Nat} {s : Checkout}

/-- The invariant reads the pool, the pages, the block numbers and the marks
`disk_buff_using`. -/
theorem CheckoutInv.congr {extra' : Finset Nat} {c' : Cache} (h : CheckoutInv extra s)
    (hwf : c'.Wf extra')
    (hbuff : ∀ i, (c'.buff i).page = (s.cache.buff i).page ∧
      (c'.buff i).inUse = (s.cache.buff i).inUse ∧
      (c'.buff i).blockId = (s.cache.buff i).blockId) :
    CheckoutInv extra' ⟨c', s.out⟩ := by
  refine ⟨hwf, ?_, ?_⟩
  · intro e he
    obtain ⟨hzero, i, hi⟩ := h.designates e he
    exact ⟨hzero, i, by rw [(hbuff i).1, (hbuff i).2.2]; exact hi⟩
  · intro i hi
    rw [(hbuff i).2.1] at hi
    rw [Checkout.Held, (hbuff i).1]
    exact h.used_held i hi

/-- The invariant gives what the callers rely on. -/
theorem CheckoutInv.kept (h : CheckoutInv extra s) : s.Kept := by
  refine ⟨fun e he => (h.designates e he).2, ?_, ?_⟩
  · intro e he hfree
    obtain ⟨hzero, i, hpage, _⟩ := h.designates e he
    obtain ⟨n, _, hexact⟩ := h.wf.pool
    exact hexact.free_not_live _ hfree
      (Finset.mem_union_right _ (Cache.mem_pages.mpr ⟨hzero, i, hpage⟩))
  · intro e he d hd hed
    obtain ⟨hzero, i, hpage, hblock⟩ := h.designates e he
    obtain ⟨_, j, hpage', hblock'⟩ := h.designates d hd
    obtain rfl : i = j :=
      h.wf.page_inj i j (hpage ▸ hzero) (by rw [hpage, hpage', hed])
    exact hblock.symm.trans hblock'

/-- While fewer than 32 buffers are outstanding some buffer is not in use. -/
theorem CheckoutInv.exists_free (h : CheckoutInv extra s) (hb : s.Bounded) :
    ∃ i, (s.cache.buff i).inUse = false := by
  by_contra hall
  have hused : ∀ i, s.Held i := by
    intro i
    apply h.used_held
    by_contra hi
    exact hall ⟨i, by simpa using hi⟩
  have hne : ∀ i, (s.cache.buff i).page ≠ 0 := by
    intro i
    obtain ⟨e, he, hpage⟩ := List.mem_map.mp (hused i)
    rw [← hpage]
    exact (h.designates e he).1
  have hcard : diskBuffSize ≤ (s.out.map Prod.fst).toFinset.card := by
    have hinj : Function.Injective fun i => (s.cache.buff i).page :=
      fun i j hij => h.wf.page_inj i j (hne i) hij
    calc diskBuffSize
        = (Finset.univ.image fun i => (s.cache.buff i).page).card := by
          rw [Finset.card_image_of_injective _ hinj, Finset.card_univ, Fintype.card_fin]
      _ ≤ (s.out.map Prod.fst).toFinset.card := by
          apply Finset.card_le_card
          intro a ha
          obtain ⟨i, _, rfl⟩ := Finset.mem_image.mp ha
          exact List.mem_toFinset.mpr (hused i)
  exact absurd hb (by unfold Checkout.Bounded; omega)

/-- A commit changes no page and no block number, and marks no buffer. -/
theorem blockCommit_frame (c : Cache) (block : Nat) (doWrite : Bool)
    (i : Fin diskBuffSize) :
    ((blockCommit c block doWrite).buff i).page = (c.buff i).page ∧
      ((blockCommit c block doWrite).buff i).blockId = (c.buff i).blockId ∧
      (((blockCommit c block doWrite).buff i).inUse = true → (c.buff i).inUse = true) := by
  unfold blockCommit
  split
  · exact ⟨rfl, rfl, id⟩
  · rename_i j _
    rcases eq_or_ne i j with rfl | hne <;> simp [*]

/-- A commit keeps the invariant. -/
theorem CheckoutInv.commit (h : CheckoutInv extra s) (block : Nat) (doWrite : Bool) :
    CheckoutInv extra ⟨blockCommit s.cache block doWrite,
      s.out.eraseP fun e => e.1 = block⟩ := by
  have hframe := blockCommit_frame s.cache block doWrite
  refine ⟨blockCommit_wf h.wf block doWrite, ?_, ?_⟩
  · intro e he
    obtain ⟨hzero, i, hi⟩ := h.designates e (List.mem_of_mem_eraseP he)
    exact ⟨hzero, i, by rw [(hframe i).1, (hframe i).2.1]; exact hi⟩
  · intro i hi
    obtain ⟨e, he, hpage⟩ := List.mem_map.mp (h.used_held i ((hframe i).2.2 hi))
    refine List.mem_map.mpr ⟨e, ?_, by rw [(hframe i).1, hpage]⟩
    refine (List.mem_eraseP_of_neg ?_).mpr he
    intro hblock
    obtain rfl : e.1 = block := by simpa using hblock
    have hinj : ∀ j, (s.cache.buff j).page = (s.cache.buff i).page → j = i := by
      intro j hj
      exact (h.wf.page_inj i j (hpage ▸ (h.designates e he).1) hj.symm).symm
    rw [hpage, blockCommit_eq hinj] at hi
    simp at hi

/-- A call that finds its block keeps the invariant. -/
theorem CheckoutInv.hit (h : CheckoutInv extra s) {b : Nat} {i : Fin diskBuffSize}
    (hfind : s.cache.findBuff b = some i) :
    CheckoutInv extra ⟨s.cache.setBuff i { s.cache.buff i with inUse := true },
      ((s.cache.buff i).page, b) :: s.out⟩ := by
  obtain ⟨hblock, hzero⟩ := Cache.findBuff_eq_some hfind
  have hpage : ∀ j, ((s.cache.setBuff i { s.cache.buff i with inUse := true }).buff j).page =
      (s.cache.buff j).page := by
    intro j
    rcases eq_or_ne j i with rfl | hne <;> simp [*]
  have hid : ∀ j, ((s.cache.setBuff i { s.cache.buff i with inUse := true }).buff j).blockId =
      (s.cache.buff j).blockId := by
    intro j
    rcases eq_or_ne j i with rfl | hne <;> simp [*]
  refine ⟨h.wf.setFlags i true (s.cache.buff i).dirty, ?_, ?_⟩
  · intro e he
    rcases List.mem_cons.mp he with rfl | he
    · exact ⟨hzero, i, hpage i, (hid i).trans hblock⟩
    · obtain ⟨hne, j, hj⟩ := h.designates e he
      exact ⟨hne, j, by rw [hpage, hid]; exact hj⟩
  · intro j hj
    rw [Checkout.Held, hpage, List.map_cons, List.mem_cons]
    rcases eq_or_ne j i with rfl | hne
    · exact Or.inl rfl
    · rw [Cache.setBuff_buff_of_ne _ hne] at hj
      exact Or.inr (h.used_held j hj)

/-- Loading a block keeps the invariant when nobody holds the victim. -/
theorem CheckoutInv.miss (h : CheckoutInv extra s) {b : Nat} {v : Fin diskBuffSize}
    (hfind : s.cache.findBuff b = none) (hfree : (s.cache.buff v).inUse = false)
    (hheld : ¬ s.Held v) (doRead : Bool) :
    CheckoutInv extra ⟨(s.cache.evict v).load v b doRead,
      ((s.cache.evict v).newPage, b) :: s.out⟩ := by
  have hwf := (h.wf.evict v)
  have hother : ∀ j, j ≠ v →
      ((s.cache.evict v).load v b doRead).buff j = s.cache.buff j := by
    intro j hne
    rw [Cache.load_buff_of_ne _ b doRead hne, Cache.evict_buff_of_ne _ hne]
  refine ⟨hwf.load (Cache.evict_page_self _ v) (Cache.blockId_ne_evict hfind) doRead,
    ?_, ?_⟩
  · intro e hmem
    rcases List.mem_cons.mp hmem with rfl | he
    · exact ⟨hwf.newPage_fresh.1, v, by rw [Cache.load_buff_self], by
        rw [Cache.load_buff_self]⟩
    · obtain ⟨hzero, j, hj⟩ := h.designates e he
      have hne : j ≠ v := by
        rintro rfl
        exact hheld (List.mem_map.mpr ⟨e, he, hj.1.symm⟩)
      exact ⟨hzero, j, by rw [hother j hne]; exact hj⟩
  · intro j hj
    have hne : j ≠ v := by
      rintro rfl
      rw [Cache.load_inUse, Cache.evict_inUse, hfree] at hj
      exact absurd hj (by decide)
    rw [Checkout.Held, hother j hne, List.map_cons]
    rw [hother j hne] at hj
    exact List.mem_cons_of_mem _ (h.used_held j hj)

/-- Loading a block over a held buffer breaks what its holder relies on. -/
theorem CheckoutInv.not_kept_of_held (h : CheckoutInv extra s) {b : Nat}
    {v : Fin diskBuffSize} (hfind : s.cache.findBuff b = none) (hheld : s.Held v)
    (doRead : Bool) :
    ¬ Checkout.Kept ⟨(s.cache.evict v).load v b doRead,
      ((s.cache.evict v).newPage, b) :: s.out⟩ := by
  intro hkept
  obtain ⟨e, he, hpage⟩ := List.mem_map.mp hheld
  obtain ⟨hzero, i, hi, hblock⟩ := h.designates e he
  obtain rfl : i = v := h.wf.page_inj i v (hi ▸ hzero) (hi.trans hpage)
  obtain ⟨j, hj, hjblock⟩ := hkept.designates e (List.mem_cons_of_mem _ he)
  rcases eq_or_ne j i with rfl | hne
  · rw [Cache.load_buff_self] at hjblock
    exact Cache.findBuff_eq_none hfind j (hi ▸ hzero) (hblock.trans hjblock.symm)
  · rw [Cache.load_buff_of_ne _ b doRead hne, Cache.evict_buff_of_ne _ hne] at hj
    exact hne (h.wf.page_inj j i (hj ▸ hzero) (hj.trans hi.symm))

/-- A safe call never recycles a held buffer: a free buffer before the victim
would have been the victim. -/
theorem Checkout.victim_not_held {b : Nat} {doRead : Bool}
    (hsafe : s.Safe (.get b doRead)) (hfind : s.cache.findBuff b = none)
    {v : Fin diskBuffSize}
    (hv : s.cache.victimFrom diskBuffSize s.cache.idNextNewBuff = some v) : ¬ s.Held v := by
  intro hheld
  obtain ⟨j, _, hjfree, hlt⟩ := hsafe hfind v hheld (Cache.victimFrom_inUse hv)
  have := Cache.rounds_victim_le hv hjfree
  omega

/-- One step: it has an outcome, it keeps the invariant when it is safe, and
it breaks what a caller relies on when it is not. -/
theorem checkoutStep_spec (h : CheckoutInv extra s) (hb : s.Bounded) (op : CheckoutOp) :
    ∃ s', checkoutStep s op = some s' ∧ (s.Safe op → CheckoutInv extra s') ∧
      (¬ s.Safe op → ¬ s'.Kept) := by
  cases op with
  | commit block doWrite =>
    exact ⟨_, rfl, fun _ => h.commit block doWrite, fun hn => absurd trivial hn⟩
  | get b doRead =>
    cases hfind : s.cache.findBuff b with
    | some i =>
      refine ⟨_, by rw [checkoutStep, blockGet, hfind]; rfl, fun _ => h.hit hfind, ?_⟩
      intro hn
      exact absurd (fun hnone => by rw [hfind] at hnone; cases hnone) hn
    | none =>
      obtain ⟨i, hi⟩ := h.exists_free hb
      obtain ⟨v, hv⟩ := Cache.exists_victim hi
      have hfree := Cache.victimFrom_inUse hv
      refine ⟨⟨(s.cache.evict v).load v b doRead, ((s.cache.evict v).newPage, b) :: s.out⟩,
        ?_, ?_, ?_⟩
      · rw [checkoutStep, blockGet, hfind]
        simp [hv, Cache.load_buff_self]
      · intro hsafe
        exact h.miss hfind hfree (Checkout.victim_not_held hsafe hfind hv) doRead
      · intro hunsafe
        apply h.not_kept_of_held hfind _ doRead
        by_contra hheld
        apply hunsafe
        intro _ k hk hkfree
        refine ⟨v, hheld, hfree, lt_of_le_of_ne (Cache.rounds_victim_le hv hkfree) ?_⟩
        intro heq
        exact hheld (Cache.rounds_inj heq ▸ hk)

end Checkout

/-! ## When checked-out buffers are kept -/

/-- In every run of safe steps the callers keep what they rely on.  In every
state of such a run each further call comes back, and it keeps the buffers
that are held exactly when it is safe. -/
theorem checkout_kept_iff_safe (table : PartitionTable) (card : Card)
    (mem : Nat → Block) (part : Fin 4) {s : Checkout}
    (h : Reaches checkoutStep (fun s op => s.Bounded ∧ s.Safe op)
      (bootCheckout table card mem part) s) :
    s.Kept ∧ ∀ op, s.Bounded →
      ∃ s', checkoutStep s op = some s' ∧ (s'.Kept ↔ s.Safe op) := by
  have hinv : CheckoutInv bootPages s := by
    refine h.invariant _ (bootCheckout_inv table card mem part) ?_
    rintro a op b ha ⟨hbounded, hsafe⟩ hstep
    obtain ⟨b', hb', hkeep, _⟩ := checkoutStep_spec ha hbounded op
    obtain rfl : b' = b := by simpa [hb'] using hstep
    exact hkeep hsafe
  refine ⟨hinv.kept, fun op hbounded => ?_⟩
  obtain ⟨s', hstep, hkeep, hbreak⟩ := checkoutStep_spec hinv hbounded op
  exact ⟨s', hstep, fun hk => by_contra fun hn => hbreak hn hk, fun hs => (hkeep hs).kept⟩

instance (s : Checkout) : Decidable s.Bounded :=
  inferInstanceAs (Decidable (_ < _))

instance (s : Checkout) (i : Fin diskBuffSize) : Decidable (s.Held i) :=
  inferInstanceAs (Decidable (_ ∈ _))

instance (s : Checkout) (op : CheckoutOp) : Decidable (s.Safe op) :=
  match op with
  | .get blockId _ =>
    inferInstanceAs (Decidable (s.cache.findBuff blockId = none →
      ∀ i, s.Held i → (s.cache.buff i).inUse = false →
        ∃ j, ¬ s.Held j ∧ (s.cache.buff j).inUse = false ∧
          s.cache.rounds j < s.cache.rounds i))
  | .commit _ _ => isTrue trivial

/-- Boot over an empty card with four equal partitions. -/
def blankCheckout : Checkout :=
  bootCheckout (fun _ => { startLba := 0, sectorNum := 8192 }) (fun _ => 0) (fun _ _ => 0) 0

/-- One load that is held, then 31 loads of other blocks that are given back
at once, then one more load. -/
def overrun : List CheckoutOp :=
  .get 0 true ::
    ((List.range 31).flatMap fun k =>
      [.get (k + 1) true, .commit (kernelPageStart + (k + 3) * blockSize) false]) ++
    [.get 32 true]

/-- Up to the last load of `overrun` every buffer is loaded once, and the page that is
held is kept. -/
theorem overrun_kept_before :
    ∃ s, runIf checkoutStep (fun s op => s.Bounded ∧ s.Safe op) blankCheckout
        overrun.dropLast = some s ∧
      s.out = [(kernelPageStart + 2 * blockSize, 0)] ∧ s.Kept := by
  have hrun : ((runIf checkoutStep (fun s op => s.Bounded ∧ s.Safe op) blankCheckout
      overrun.dropLast).map fun s => s.out) = some [(kernelPageStart + 2 * blockSize, 0)] := by
    decide +kernel
  obtain ⟨s, hs, hout⟩ := Option.map_eq_some_iff.mp hrun
  exact ⟨s, hs, hout, (checkout_kept_iff_safe _ _ _ _ (reaches_of_runIf hs)).1⟩

/-- With two buffers outstanding the last load of `overrun` recycles the
buffer of the first. -/
theorem overrun_not_kept :
    ¬ ∀ s, Reaches checkoutStep (fun s _ => s.Bounded) blankCheckout s →
      s.Bounded → s.Kept := by
  intro h
  have hrun : ((runIf checkoutStep (fun s _ => s.Bounded) blankCheckout overrun).map
      fun s => decide (s.Bounded ∧ ¬ ∀ e ∈ s.out, ∃ i, (s.cache.buff i).page = e.1 ∧
        (s.cache.buff i).blockId = e.2)) = some true := by
    decide +kernel
  obtain ⟨s, hs, hbroken⟩ := Option.map_eq_some_iff.mp hrun
  obtain ⟨hbounded, hnot⟩ := of_decide_eq_true hbroken
  exact hnot (h s (reaches_of_runIf hs) hbounded).designates

end MipsOs.Fs
