import MipsOs.Fs.Access
import MipsOs.Fs.PathWalk

/-!
# What a block holds while calls read

The content of a block, as `block_get` shows it, is the page of the buffer that
holds the block, or the block of the card.  A get may evict any buffer, so this
content lasts only where the cache and the card agree.  `Cache.Steady` says that
they do for one block: an unchanged page of it is the block of the card, and a
changed page of another block does not overlap it.

`Keeps` is the relation between a cache and the cache after some gets and
commits of a reader.  A steady block stays steady and keeps its content
(`blockGet_keeps`, `blockCommit_keeps`), and the page that a get answers holds
the content of the block (`blockGet_mem`).
-/

namespace MipsOs.Fs

open MipsOs.Mm

/-- The content of a block, as `block_get` shows it. -/
def Cache.content (c : Cache) : BlockStore := fun b =>
  match c.findBuff b with
  | some i => c.mem (c.buff i).page
  | none => blockRead c.table c.card c.currentPartition b

/-- An unchanged page of the block is the block of the card, and no changed page of
another block overlaps it there. -/
structure Cache.Steady (c : Cache) (b : Nat) : Prop where
  clean : ∀ i, (c.buff i).page ≠ 0 → (c.buff i).blockId = b → (c.buff i).dirty = false →
    c.mem (c.buff i).page = blockRead c.table c.card c.currentPartition b
  apart : ∀ i, (c.buff i).page ≠ 0 → (c.buff i).dirty = true → (c.buff i).blockId ≠ b →
    Separate c.table c.currentPartition (c.buff i).blockId c.currentPartition b

/-- What was steady is still steady, with the same content. -/
def Keeps (c c' : Cache) : Prop :=
  ∀ b, c.Steady b → c'.Steady b ∧ c'.content b = c.content b

section Keeps

variable {c c₁ c₂ : Cache} {b : Nat}

theorem Keeps.refl (c : Cache) : Keeps c c := fun _ h => ⟨h, rfl⟩

theorem Keeps.trans (h : Keeps c c₁) (h' : Keeps c₁ c₂) : Keeps c c₂ := by
  intro b hb
  obtain ⟨h₁, hcontent⟩ := h b hb
  obtain ⟨h₂, hcontent'⟩ := h' b h₁
  exact ⟨h₂, hcontent'.trans hcontent⟩

end Keeps

namespace Cache

variable {c : Cache} {extra : Finset Nat} {b d : Nat} {i v : Fin diskBuffSize}

/-! ## The content of a block -/

theorem content_of_buff (hwf : c.Wf extra) (hpage : (c.buff i).page ≠ 0)
    (hblock : (c.buff i).blockId = b) : c.content b = c.mem (c.buff i).page := by
  unfold content
  cases hfind : c.findBuff b with
  | none => exact absurd hblock (findBuff_eq_none hfind i hpage)
  | some j =>
    obtain ⟨hj, hpage'⟩ := findBuff_eq_some hfind
    obtain rfl := hwf.block_inj j i hpage' hpage (hj.trans hblock.symm)
    rfl

theorem content_of_absent (h : ∀ i, (c.buff i).page ≠ 0 → (c.buff i).blockId ≠ b) :
    c.content b = blockRead c.table c.card c.currentPartition b := by
  unfold content
  cases hfind : c.findBuff b with
  | none => rfl
  | some j =>
    obtain ⟨hj, hpage⟩ := findBuff_eq_some hfind
    exact absurd hj (h j hpage)

/-- A block is in one buffer or in none. -/
theorem held_or_absent (c : Cache) (b : Nat) :
    (∃ i, (c.buff i).page ≠ 0 ∧ (c.buff i).blockId = b) ∨
      ∀ i, (c.buff i).page ≠ 0 → (c.buff i).blockId ≠ b := by
  by_cases h : ∃ i, (c.buff i).page ≠ 0 ∧ (c.buff i).blockId = b
  · exact .inl h
  · exact .inr fun i hpage hblock => h ⟨i, hpage, hblock⟩

/-! ## Eviction -/

/-- The card after an eviction, at a steady block that the evicted buffer does not
hold. -/
theorem Steady.card_evict (h : c.Steady b)
    (hv : (c.buff v).page ≠ 0 → (c.buff v).blockId ≠ b) :
    blockRead c.table (c.evict v).card c.currentPartition b =
      blockRead c.table c.card c.currentPartition b := by
  rw [evict_card]
  split_ifs with hdirty
  · exact blockRead_blockWrite_of_separate (h.apart v hdirty.1 hdirty.2 (hv hdirty.1)) _ _
  · rfl

/-- The card after an eviction, at the block that the evicted buffer held. -/
theorem Steady.card_evict_self (h : c.Steady b) (hpage : (c.buff v).page ≠ 0)
    (hblock : (c.buff v).blockId = b) :
    blockRead c.table (c.evict v).card c.currentPartition b = c.mem (c.buff v).page := by
  rw [evict_card]
  split_ifs with hdirty
  · rw [hblock, blockRead_blockWrite_same]
  · exact (h.clean v hpage hblock (by simpa [hpage] using hdirty)).symm

theorem Steady.evict (hwf : c.Wf extra) (h : c.Steady b) : (c.evict v).Steady b := by
  refine ⟨fun j hpage hblock hclean => ?_, fun j hpage hdirty hne => ?_⟩
  all_goals
    have hj : j ≠ v := by
      rintro rfl
      exact hpage (evict_page_self c j)
    rw [evict_buff_of_ne c hj] at *
    rw [evict_table, evict_currentPartition]
  · have hv : (c.buff v).page ≠ 0 → (c.buff v).blockId ≠ b := fun hv heq =>
      hj (hwf.block_inj j v hpage hv (hblock.trans heq.symm))
    rw [evict_mem, h.card_evict hv]
    exact h.clean j hpage hblock hclean
  · exact h.apart j hpage hdirty hne

theorem Steady.content_evict (hwf : c.Wf extra) (h : c.Steady b) :
    (c.evict v).content b = c.content b := by
  have hwf' := hwf.evict v
  have hcard : (∀ j, ((c.evict v).buff j).page ≠ 0 → ((c.evict v).buff j).blockId ≠ b) →
      (c.evict v).content b = blockRead c.table (c.evict v).card c.currentPartition b := by
    intro habsent
    rw [content_of_absent habsent, evict_table, evict_currentPartition]
  rcases c.held_or_absent b with ⟨j, hpage, hblock⟩ | habsent
  · rw [content_of_buff hwf hpage hblock]
    by_cases hj : j = v
    · subst hj
      rw [hcard, h.card_evict_self hpage hblock]
      intro k hk
      have hkj : k ≠ j := by
        rintro rfl
        exact hk (evict_page_self c k)
      rw [evict_buff_of_ne c hkj] at hk ⊢
      exact fun heq => hkj (hwf.block_inj k j hk hpage (heq.trans hblock.symm))
    · have hsame := evict_buff_of_ne c hj
      rw [content_of_buff hwf' (hsame ▸ hpage) (hsame ▸ hblock), hsame, evict_mem]
  · rw [hcard, h.card_evict (habsent v), content_of_absent habsent]
    intro k hk
    have hkv : k ≠ v := by
      rintro rfl
      exact hk (evict_page_self c k)
    rw [evict_buff_of_ne c hkv] at hk ⊢
    exact habsent k hk

/-! ## Loading -/

/-- A load that reads leaves the pages of the other buffers alone. -/
theorem Wf.mem_load (hwf : c.Wf extra) {j : Fin diskBuffSize} (hpage : (c.buff j).page ≠ 0)
    (d : Nat) : (c.load v d true).mem (c.buff j).page = c.mem (c.buff j).page := by
  have hmem : (c.buff j).page ∈ c.pages := mem_pages.mpr ⟨hpage, j, rfl⟩
  have hne : (c.buff j).page ≠ c.newPage := by
    intro heq
    exact hwf.newPage_fresh.2 (Finset.mem_union_right _ (heq ▸ hmem))
  rw [load_mem, if_pos rfl, Function.update_of_ne hne]

theorem mem_load_self (c : Cache) (v : Fin diskBuffSize) (d : Nat) :
    (c.load v d true).mem c.newPage = blockRead c.table c.card c.currentPartition d := by
  rw [load_mem, if_pos rfl, Function.update_self]

theorem Steady.load (hwf : c.Wf extra) (h : c.Steady b) : (c.load v d true).Steady b := by
  refine ⟨fun j hpage hblock hclean => ?_, fun j hpage hdirty hne => ?_⟩
  · rw [load_table, load_card, load_currentPartition]
    by_cases hj : j = v
    · subst hj
      rw [load_buff_self] at hblock ⊢
      obtain rfl : d = b := hblock
      exact mem_load_self c j d
    · rw [load_buff_of_ne c d true hj] at *
      rw [hwf.mem_load hpage]
      exact h.clean j hpage hblock hclean
  · rw [load_table, load_currentPartition]
    by_cases hj : j = v
    · subst hj
      rw [load_buff_self] at hdirty
      cases hdirty
    · rw [load_buff_of_ne c d true hj] at *
      exact h.apart j hpage hdirty hne

/-- A load of a block that no buffer holds into an empty buffer. -/
theorem Wf.content_load (hwf : c.Wf extra) (hempty : (c.buff v).page = 0)
    (hnew : ∀ j, (c.buff j).page ≠ 0 → (c.buff j).blockId ≠ d) (b : Nat) :
    (c.load v d true).content b = c.content b := by
  have hwf' := hwf.load hempty hnew true
  have hself := load_buff_self c v d true
  by_cases hd : d = b
  · subst hd
    have hpage : ((c.load v d true).buff v).page ≠ 0 := by
      rw [hself]
      exact hwf.newPage_fresh.1
    rw [content_of_absent hnew, content_of_buff hwf' hpage (by rw [hself]), hself]
    exact mem_load_self c v d
  rcases c.held_or_absent b with ⟨j, hpage, hblock⟩ | habsent
  · have hj : j ≠ v := by
      rintro rfl
      exact hpage hempty
    have hsame := load_buff_of_ne c d true hj
    rw [content_of_buff hwf hpage hblock, content_of_buff hwf' (hsame ▸ hpage) (hsame ▸ hblock),
      hsame, hwf.mem_load hpage]
  · rw [content_of_absent habsent, content_of_absent, load_table, load_card,
      load_currentPartition]
    intro j hpage
    by_cases hj : j = v
    · subst hj
      rw [hself]
      exact hd
    · rw [load_buff_of_ne c d true hj] at hpage ⊢
      exact habsent j hpage

/-- The flag `inUse` is not read. -/
theorem setInUse_keeps (c : Cache) (i : Fin diskBuffSize) (inUse : Bool) :
    Keeps c (c.setBuff i { c.buff i with inUse := inUse }) := by
  have hbuff : ∀ j, ∃ u, (c.setBuff i { c.buff i with inUse := inUse }).buff j =
      { c.buff j with inUse := u } := by
    intro j
    by_cases hj : j = i
    · subst hj
      exact ⟨inUse, setBuff_buff_self c j _⟩
    · exact ⟨(c.buff j).inUse, setBuff_buff_of_ne c hj _⟩
  have hpage : ∀ j, ((c.setBuff i { c.buff i with inUse := inUse }).buff j).page =
      (c.buff j).page := fun j => by
    obtain ⟨u, hu⟩ := hbuff j
    rw [hu]
  have hblock : ∀ j, ((c.setBuff i { c.buff i with inUse := inUse }).buff j).blockId =
      (c.buff j).blockId := fun j => by
    obtain ⟨u, hu⟩ := hbuff j
    rw [hu]
  have hdirty : ∀ j, ((c.setBuff i { c.buff i with inUse := inUse }).buff j).dirty =
      (c.buff j).dirty := fun j => by
    obtain ⟨u, hu⟩ := hbuff j
    rw [hu]
  intro b h
  refine ⟨⟨fun j => ?_, fun j => ?_⟩, ?_⟩
  · rw [hpage, hblock, hdirty]
    exact h.clean j
  · rw [hpage, hblock, hdirty]
    exact h.apart j
  · simp only [content, findBuff, hpage, hblock]
    rfl

end Cache

/-! ## Gets and commits of a reader -/

section Reader

variable {c c' : Cache} {extra : Finset Nat} {b page : Nat}

theorem blockGet_keeps (hwf : c.Wf extra) (hget : blockGet c b true = some (page, c')) :
    Keeps c c' := by
  rcases blockGet_cases hget with ⟨i, _, _, rfl⟩ | ⟨v, hnone, _, _, rfl⟩
  · exact c.setInUse_keeps i true
  · intro d hd
    have hwf' := hwf.evict v
    refine ⟨(hd.evict hwf).load hwf', ?_⟩
    rw [hwf'.content_load (Cache.evict_page_self c v) (Cache.blockId_ne_evict hnone),
      hd.content_evict hwf]

/-- The page that a get answers holds the content of the block. -/
theorem blockGet_mem (hwf : c.Wf extra) (hsteady : c.Steady b)
    (hget : blockGet c b true = some (page, c')) : c'.mem page = c.content b := by
  have hkeep := (blockGet_keeps hwf hget b hsteady).2
  have hwf' := blockGet_wf hwf hget
  rw [← hkeep]
  rcases blockGet_cases hget with ⟨i, hfind, rfl, rfl⟩ | ⟨v, hnone, _, rfl, rfl⟩
  · obtain ⟨hblock, hpage⟩ := Cache.findBuff_eq_some hfind
    have hself := Cache.setBuff_buff_self c i { c.buff i with inUse := true }
    rw [Cache.content_of_buff (i := i) hwf' (by rwa [hself]) (by rwa [hself]), hself]
  · have hself := Cache.load_buff_self (c.evict v) v b true
    have hpage : (((c.evict v).load v b true).buff v).page ≠ 0 := by
      rw [hself]
      exact (hwf.evict v).newPage_fresh.1
    rw [Cache.content_of_buff hwf' hpage (by rw [hself]), hself]

theorem blockCommit_keeps (c : Cache) (page : Nat) : Keeps c (blockCommit c page false) := by
  unfold blockCommit
  split
  · exact Keeps.refl c
  · rename_i i _
    exact c.setInUse_keeps i false

end Reader

end MipsOs.Fs
